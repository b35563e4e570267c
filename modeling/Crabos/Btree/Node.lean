import Mathlib
import Crabos.Lib.Weave

/-!
# Nodes of the B-tree map (`alloc_collections/src/btree/node.rs`, `search.rs`)

A node of height zero is a leaf and holds key/value pairs. Any other node
holds pairs and the edges to its children. Heights are part of the type, so a
tree has all its leaves at one depth. A node handle is a node with an index;
walking down and coming back up through parent links is recursion over the
height. `none` is an access out of bounds, which the unsafe code never makes.
-/
namespace Crabos.BTree

open Crabos.Weave

def B : Nat := 6

def CAPACITY : Nat := 2 * B - 1

structure InternalNode (K V N : Type) where
  data : List (K × V)
  edges : List N
  deriving DecidableEq

def Node (K V : Type) : Nat → Type
  | 0 => List (K × V)
  | h + 1 => InternalNode K V (Node K V h)

variable {K V : Type}

def Node.data : {h : Nat} → Node K V h → List (K × V)
  | 0, n => n
  | _ + 1, n => InternalNode.data n

def Node.len {h : Nat} (n : Node K V h) : Nat := n.data.length

/-- The pairs of a subtree in the order of its leaves. -/
def Node.pairs : {h : Nat} → Node K V h → List (K × V)
  | 0, n => n
  | h + 1, n => weave ((InternalNode.edges n).map (Node.pairs (h := h))) (InternalNode.data n)

section Search

variable [LinearOrder K]

/-- `search_linear`: the index of the key, or of the edge where it belongs. -/
def searchLinear : List (K × V) → K → Nat × Bool
  | [], _ => (0, false)
  | kv :: kvs, key =>
    match cmp key kv.1 with
    | .gt => ((searchLinear kvs key).1 + 1, (searchLinear kvs key).2)
    | .eq => (0, true)
    | .lt => (0, false)

end Search

/-- What an insertion leaves of the node it went through. `failed` is a split
that found no memory; the node may already hold fewer pairs than before. -/
inductive InsertResult (K V : Type) (h : Nat) where
  | occupied (old : V) (n : Node K V h)
  | fit (n : Node K V h)
  | split (left : Node K V h) (kv : K × V) (right : Node K V h)
  | failed (n : Node K V h)

/-- `Handle::insert` at an edge of a leaf; `ok` is the outcome of `Box::new`
in `split`, should it be called. -/
def leafInsert (data : List (K × V)) (idx : Nat) (kv : K × V) (ok : Bool) :
    Option (InsertResult K V 0) :=
  if data.length < CAPACITY then some (.fit (data.insertIdx idx kv))
  else if ok then
    data[B]?.map fun middle =>
      if idx ≤ B then .split ((data.take B).insertIdx idx kv) middle (data.drop (B + 1))
      else .split (data.take B) middle ((data.drop (B + 1)).insertIdx (idx - (B + 1)) kv)
  else some (.failed data)

namespace InternalNode

variable {N : Type}

def insertFit (n : InternalNode K V N) (idx : Nat) (kv : K × V) (edge : N) : InternalNode K V N :=
  ⟨n.data.insertIdx idx kv, n.edges.insertIdx (idx + 1) edge⟩

/-- The part that `split` leaves in the node. -/
def splitLeft (n : InternalNode K V N) : InternalNode K V N := ⟨n.data.take B, n.edges.take (B + 1)⟩

/-- The part that `split` moves to the new node. -/
def splitRight (n : InternalNode K V N) : InternalNode K V N :=
  ⟨n.data.drop (B + 1), n.edges.drop (B + 1)⟩

def setEdge (n : InternalNode K V N) (idx : Nat) (edge : N) : InternalNode K V N :=
  ⟨n.data, n.edges.set idx edge⟩

def setKv (n : InternalNode K V N) (idx : Nat) (kv : K × V) : InternalNode K V N :=
  ⟨n.data.set idx kv, n.edges⟩

end InternalNode

/-- `Handle::insert` at an edge of an internal node: the pair goes to the
right of the edge, and the new edge to the right of the pair. -/
def internalInsert {h : Nat} (n : InternalNode K V (Node K V h)) (idx : Nat) (kv : K × V)
    (edge : Node K V h) (ok : Bool) : Option (InsertResult K V (h + 1)) :=
  if n.data.length < CAPACITY then some (.fit (n.insertFit idx kv edge))
  else if ok then
    n.data[B]?.map fun middle =>
      if idx ≤ B then .split (n.splitLeft.insertFit idx kv edge) middle n.splitRight
      else .split n.splitLeft middle (n.splitRight.insertFit (idx - (B + 1)) kv edge)
  else some (.failed n)

/-- The loop of `VacantEntry::insert`, one level up. -/
def ascend {h : Nat} (n : InternalNode K V (Node K V h)) (idx : Nat) (ok : Bool) :
    InsertResult K V h → Option (InsertResult K V (h + 1))
  | .occupied old e => some (.occupied old (n.setEdge idx e))
  | .fit e => some (.fit (n.setEdge idx e))
  | .split left kv right => internalInsert (n.setEdge idx left) idx kv right ok
  | .failed e => some (.failed (n.setEdge idx e))

/-- `search_tree` down to the leaf, then the insertion on the way back up.
`ok h` is the outcome of the allocation for splitting the node of height `h`. -/
def insertNode [LinearOrder K] (ok : Nat → Bool) (key : K) (value : V) :
    {h : Nat} → Node K V h → Option (InsertResult K V h)
  | 0, n =>
    match searchLinear n key with
    | (i, true) => (Node.data n)[i]?.map fun kv =>
      .occupied kv.2 ((Node.data n).set i (kv.1, value) : List (K × V))
    | (i, false) => leafInsert n i (key, value) (ok 0)
  | h + 1, n =>
    match searchLinear (InternalNode.data n) key with
    | (i, true) => (InternalNode.data n)[i]?.map fun kv =>
      .occupied kv.2 (InternalNode.setKv n i (kv.1, value))
    | (i, false) => (InternalNode.edges n)[i]?.bind fun e =>
      (insertNode ok key value e).bind (ascend n i (ok (h + 1)))

/-- How far the loop of `remove_kv` has come at a node: it goes on with this
node, it has ended, or it ends by taking a level off the root. -/
inductive Underflow where
  | goOn
  | done
  | popLevel
  deriving DecidableEq, Repr

/-- `merge`: the left node takes the pair and all of the right node. -/
def merge : {h : Nat} → Node K V h → K × V → Node K V h → Node K V h
  | 0, left, kv, right => (Node.data left ++ kv :: Node.data right : List (K × V))
  | _ + 1, left, kv, right =>
    ⟨InternalNode.data left ++ kv :: InternalNode.data right,
      InternalNode.edges left ++ InternalNode.edges right⟩

/-- `steal_left`: the last pair of the left node moves up, the pair moves
into the right node, with the last edge of the left node before it. -/
def stealLeft : {h : Nat} → Node K V h → K × V → Node K V h → Option (Node K V h × (K × V) × Node K V h)
  | 0, left, kv, right => (Node.data left).getLast?.map fun last =>
    (((Node.data left).dropLast : List (K × V)), last, (kv :: Node.data right : List (K × V)))
  | _ + 1, left, kv, right =>
    (InternalNode.data left).getLast?.bind fun last =>
      (InternalNode.edges left).getLast?.map fun edge =>
        (⟨(InternalNode.data left).dropLast, (InternalNode.edges left).dropLast⟩, last,
          ⟨kv :: InternalNode.data right, edge :: InternalNode.edges right⟩)

/-- `steal_right`: the same with the first pair and edge of the right node. -/
def stealRight : {h : Nat} → Node K V h → K × V → Node K V h → Option (Node K V h × (K × V) × Node K V h)
  | 0, left, kv, right => (Node.data right).head?.map fun first =>
    ((Node.data left ++ [kv] : List (K × V)), first, ((Node.data right).tail : List (K × V)))
  | _ + 1, left, kv, right =>
    (InternalNode.data right).head?.bind fun first =>
      (InternalNode.edges right).head?.map fun edge =>
        (⟨InternalNode.data left ++ [kv], InternalNode.edges left ++ [edge]⟩, first,
          ⟨(InternalNode.data right).tail, (InternalNode.edges right).tail⟩)

/-- Merge or steal at the pair of index `i`, between its two children. -/
def rebalance {h : Nat} (n : InternalNode K V (Node K V h)) (i : Nat) (isLeft : Bool) :
    Option (InternalNode K V (Node K V h) × Underflow) :=
  n.data[i]?.bind fun kv => n.edges[i]?.bind fun left => n.edges[i + 1]?.bind fun right =>
    if left.len + right.len + 1 ≤ CAPACITY then
      some (⟨n.data.eraseIdx i, (n.edges.set i (merge left kv right)).eraseIdx (i + 1)⟩,
        if n.data.length - 1 = 0 then .popLevel else .goOn)
    else
      (if isLeft then stealLeft left kv right else stealRight left kv right).map
        fun (left', kv', right') =>
          (⟨n.data.set i kv', (n.edges.set i left').set (i + 1) right'⟩, .done)

/-- One turn of the underflow loop for the child at `idx`: the left pair of
its edge if there is one, else the right pair. -/
def handleUnderfull {h : Nat} (n : InternalNode K V (Node K V h)) (idx : Nat) (status : Underflow) :
    Option (InternalNode K V (Node K V h) × Underflow) :=
  match status with
  | .goOn => n.edges[idx]?.bind fun e =>
    if e.len < CAPACITY / 2 then
      if 0 < idx then rebalance n (idx - 1) true
      else if idx < n.data.length then rebalance n idx false
      else none
    else some (n, .done)
  | status => some (n, status)

/-- Take out the first pair of the leftmost leaf. -/
def removeFirst : {h : Nat} → Node K V h → Option ((K × V) × Node K V h × Underflow)
  | 0, n => (Node.data n).head?.map fun kv => (kv, ((Node.data n).tail : List (K × V)), .goOn)
  | _ + 1, n => (InternalNode.edges n)[0]?.bind fun e => (removeFirst e).bind fun (kv, e', status) =>
    (handleUnderfull (InternalNode.setEdge n 0 e') 0 status).map fun (n', status') =>
      (kv, n', status')

/-- `search_tree` and `remove_kv`. A pair of an internal node is replaced by
the first pair to the right of it. -/
def removeNode [LinearOrder K] (key : K) :
    {h : Nat} → Node K V h → Option (Option ((K × V) × Node K V h × Underflow))
  | 0, n =>
    match searchLinear (Node.data n) key with
    | (i, true) => (Node.data n)[i]?.map fun kv =>
      some (kv, ((Node.data n).eraseIdx i : List (K × V)), .goOn)
    | (_, false) => some none
  | _ + 1, n =>
    match searchLinear (InternalNode.data n) key with
    | (i, true) => (InternalNode.data n)[i]?.bind fun old =>
      (InternalNode.edges n)[i + 1]?.bind fun e => (removeFirst e).bind fun (kv, e', status) =>
        (handleUnderfull ((InternalNode.setKv n i kv).setEdge (i + 1) e') (i + 1) status).map
          fun (n', status') => some (old, n', status')
    | (i, false) => (InternalNode.edges n)[i]?.bind fun e => (removeNode key e).bind fun
      | none => some none
      | some (old, e', status) =>
        (handleUnderfull (InternalNode.setEdge n i e') i status).map
          fun (n', status') => some (old, n', status')

/-- A leaf edge with the way back up: what is to its right in the leaf, and at
each level above the pairs and edges to the right of the path. -/
def Position (K V : Type) : Nat → Type
  | 0 => List (K × V)
  | h + 1 => Position K V h × List (K × V) × List (Node K V h)

def firstLeafEdge : {h : Nat} → Node K V h → Option (Position K V h)
  | 0, n => some (Node.data n : List (K × V))
  | _ + 1, n => (InternalNode.edges n).head?.bind fun e =>
    (firstLeafEdge e).map fun p => (p, InternalNode.data n, (InternalNode.edges n).tail)

/-- One level up: the pair to the right, and then down to the next leaf. -/
def nextAbove {h : Nat} : List (K × V) → List (Node K V h) → Option ((K × V) × Position K V (h + 1))
  | kv :: kvs, e :: edges => (firstLeafEdge e).map fun p => (kv, (p, kvs, edges))
  | _, _ => none

/-- `next_unchecked`: the pair to the right of the edge, or at the end of a
node the one to the right on the first level above that has one. -/
def nextUnchecked : {h : Nat} → Position K V h → Option ((K × V) × Position K V h)
  | 0, p =>
    match (p : List (K × V)) with
    | [] => none
    | kv :: kvs => some (kv, (kvs : List (K × V)))
  | _ + 1, (p, kvs, edges) =>
    match nextUnchecked p with
    | some (kv, p') => some (kv, (p', kvs, edges))
    | none => nextAbove kvs edges

end Crabos.BTree
