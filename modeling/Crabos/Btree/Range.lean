import Crabos.Lib.Deque
import Crabos.Btree.Map

/-!
# Ranges of the B-tree map (`Range`, `Iter` and `range_search` in `map.rs`)

A handle of a leaf edge is the row of edge indices that leads to it from the
root, so two handles are equal exactly when they are the same node and index.
A range moves its two handles towards each other and stops when they meet.
Between two leaf edges that follow each other there is exactly one pair, which
is why comparing the handles is enough.
-/
namespace Crabos.BTree

open Crabos.Weave Crabos.Deque

variable {K V : Type}

/-- `first_leaf_edge`. -/
def firstEdge : {h : Nat} → Node K V h → Option (List Nat)
  | 0, _ => some [0]
  | _ + 1, n => (InternalNode.edges n)[0]?.bind fun e => (firstEdge e).map (0 :: ·)

/-- `last_leaf_edge`. -/
def lastEdge : {h : Nat} → Node K V h → Option (List Nat)
  | 0, n => some [(Node.data n).length]
  | _ + 1, n => (InternalNode.edges n)[(InternalNode.data n).length]?.bind fun e =>
    (lastEdge e).map ((InternalNode.data n).length :: ·)

/-- `next_unchecked`. The inner `none` is an edge without a pair to its right
in the subtree: the loop goes on one level above. -/
def nextFrom : {h : Nat} → Node K V h → List Nat → Option (Option ((K × V) × List Nat))
  | 0, n, [i] => some ((Node.data n)[i]?.map fun kv => (kv, [i + 1]))
  | _ + 1, n, i :: p => (InternalNode.edges n)[i]?.bind fun e => (nextFrom e p).bind fun
    | some (kv, p') => some (some (kv, i :: p'))
    | none =>
      match (InternalNode.data n)[i]? with
      | none => some none
      | some kv => (InternalNode.edges n)[i + 1]?.bind fun e' =>
        (firstEdge e').map fun p' => some (kv, (i + 1) :: p')
  | _, _, _ => none

/-- `next_back_unchecked`, the same with the pair to the left. -/
def backFrom : {h : Nat} → Node K V h → List Nat → Option (Option ((K × V) × List Nat))
  | 0, n, [i] =>
    match i with
    | 0 => some none
    | j + 1 => (Node.data n)[j]?.map fun kv => some (kv, [j])
  | _ + 1, n, i :: p => (InternalNode.edges n)[i]?.bind fun e => (backFrom e p).bind fun
    | some (kv, p') => some (some (kv, i :: p'))
    | none =>
      match i with
      | 0 => some none
      | j + 1 => (InternalNode.data n)[j]?.bind fun kv => (InternalNode.edges n)[j]?.bind fun e' =>
        (lastEdge e').map fun p' => some (kv, j :: p')
  | _, _, _ => none

inductive Bound (K : Type) where
  | included (key : K)
  | excluded (key : K)
  | unbounded

structure Range where
  front : List Nat
  back : List Nat
  deriving DecidableEq, Repr

structure Iter where
  range : Range
  length : Nat
  deriving DecidableEq, Repr

namespace Range

/-- The loop ends in `unwrap_unchecked` when there is no level above the root. -/
def nextUnchecked {h : Nat} (root : Node K V h) (r : Range) : Option ((K × V) × Range) :=
  (nextFrom root r.front).bind fun found => found.map fun (kv, p) => (kv, { r with front := p })

def nextBackUnchecked {h : Nat} (root : Node K V h) (r : Range) : Option ((K × V) × Range) :=
  (backFrom root r.back).bind fun found => found.map fun (kv, p) => (kv, { r with back := p })

def next {h : Nat} (root : Node K V h) (r : Range) : Option (Option (K × V) × Range) :=
  if r.front = r.back then some (none, r)
  else (r.nextUnchecked root).map fun (kv, r') => (some kv, r')

def nextBack {h : Nat} (root : Node K V h) (r : Range) : Option (Option (K × V) × Range) :=
  if r.front = r.back then some (none, r)
  else (r.nextBackUnchecked root).map fun (kv, r') => (some kv, r')

/-- A call at one of the two ends. -/
def call {h : Nat} (root : Node K V h) (r : Range) : Side → Option (Option (K × V) × Range)
  | .front => r.next root
  | .back => r.nextBack root

end Range

namespace Iter

def next {h : Nat} (root : Node K V h) (it : Iter) : Option (Option (K × V) × Iter) :=
  if it.length = 0 then some (none, it)
  else (it.range.nextUnchecked root).map fun (kv, r) => (some kv, ⟨r, it.length - 1⟩)

def nextBack {h : Nat} (root : Node K V h) (it : Iter) : Option (Option (K × V) × Iter) :=
  if it.length = 0 then some (none, it)
  else (it.range.nextBackUnchecked root).map fun (kv, r) => (some kv, ⟨r, it.length - 1⟩)

def call {h : Nat} (root : Node K V h) (it : Iter) : Side → Option (Option (K × V) × Iter)
  | .front => it.next root
  | .back => it.nextBack root

end Iter

/-- `iter()` with both of its ends. -/
def BTreeMap.bothEnds (m : BTreeMap K V) : Option Iter :=
  (firstEdge m.asRef.2).bind fun f => (lastEdge m.asRef.2).map fun b => ⟨⟨f, b⟩, m.length⟩

section Search

variable [LinearOrder K]

/-- The edge at which the front goes on, and whether its key has been found. -/
def minEdge (start : Bound K) (minFound : Bool) (data : List (K × V)) : Nat × Bool :=
  match minFound, start with
  | false, .included key => searchLinear data key
  | false, .excluded key =>
    match searchLinear data key with
    | (i, true) => (i + 1, true)
    | (i, false) => (i, false)
  | found, .unbounded => (0, found)
  | true, .included _ => (data.length, true)
  | true, .excluded _ => (0, true)

def maxEdge (stop : Bound K) (maxFound : Bool) (data : List (K × V)) : Nat × Bool :=
  match maxFound, stop with
  | false, .included key =>
    match searchLinear data key with
    | (i, true) => (i + 1, true)
    | (i, false) => (i, false)
  | false, .excluded key => searchLinear data key
  | found, .unbounded => (data.length, found)
  | true, .included _ => (0, true)
  | true, .excluded _ => (data.length, true)

/-- The loop of `range_search`; `none` is also the panic for an ill-defined order. -/
def rangeSearchFrom (start stop : Bound K) : {h : Nat} → Node K V h → Node K V h →
    Bool → Bool → Bool → Option (List Nat × List Nat)
  | 0, minNode, maxNode, minFound, maxFound, diverged =>
    let min := minEdge start minFound (Node.data minNode)
    let max := maxEdge stop maxFound (Node.data maxNode)
    if diverged = false ∧ max.1 < min.1 then none else some ([min.1], [max.1])
  | _ + 1, minNode, maxNode, minFound, maxFound, diverged =>
    let min := minEdge start minFound (InternalNode.data minNode)
    let max := maxEdge stop maxFound (InternalNode.data maxNode)
    if diverged = false ∧ max.1 < min.1 then none
    else (InternalNode.edges minNode)[min.1]?.bind fun minChild =>
      (InternalNode.edges maxNode)[max.1]?.bind fun maxChild =>
        (rangeSearchFrom start stop minChild maxChild min.2 max.2
          (diverged || decide (min.1 ≠ max.1))).map fun (f, b) => (min.1 :: f, max.1 :: b)

/-- The bounds for which `range_search` panics at once. -/
def crossed : Bound K → Bound K → Bool
  | .excluded s, .excluded e => s = e || e < s
  | .included s, .included e => e < s
  | .included s, .excluded e => e < s
  | .excluded s, .included e => e < s
  | _, _ => false

def rangeSearch (start stop : Bound K) {h : Nat} (root : Node K V h) : Option Range :=
  if crossed start stop then none
  else (rangeSearchFrom start stop root root false false false).map fun (f, b) => ⟨f, b⟩

def BTreeMap.range (m : BTreeMap K V) (start stop : Bound K) : Option Range :=
  rangeSearch start stop m.asRef.2

/-- `RangeBounds::contains`. -/
def contains (start stop : Bound K) (key : K) : Bool :=
  (match start with
    | .included s => decide (s ≤ key)
    | .excluded s => decide (s < key)
    | .unbounded => true) &&
  (match stop with
    | .included e => decide (key ≤ e)
    | .excluded e => decide (key < e)
    | .unbounded => true)

end Search

/-- The leaf edge stands between the pairs `l` and the pairs `r` of the subtree. -/
def At : {h : Nat} → Node K V h → List Nat → List (K × V) → List (K × V) → Prop
  | 0, n, p, l, r => Node.data n = l ++ r ∧ p = [l.length]
  | h + 1, n, p, l, r => ∃ (pre post : List (K × V)) (epre : List (Node K V h)) (e : Node K V h)
      (epost : List (Node K V h)) (p' : List Nat) (l' r' : List (K × V)),
    InternalNode.data n = pre ++ post ∧ InternalNode.edges n = epre ++ e :: epost ∧
    epre.length = pre.length ∧ epost.length = post.length ∧ p = pre.length :: p' ∧ At e p' l' r' ∧
    l = before (epre.map Node.pairs) pre ++ l' ∧ r = r' ++ after post (epost.map Node.pairs)

theorem At.pairs {h : Nat} {n : Node K V h} {p : List Nat} {l r : List (K × V)} (ha : At n p l r) :
    n.pairs = l ++ r := by
  induction h generalizing p l r with
  | zero => exact ha.1
  | succ h ih =>
    obtain ⟨pre, post, epre, e, epost, p', l', r', hd, he, h₁, h₂, -, ha, rfl, rfl⟩ := ha
    have hp := pairs_focus hd he h₁ h₂
    rw [ih ha] at hp
    refine Eq.trans hp ?_
    simp

/-- An edge further to the right has more pairs to its left. -/
theorem before_lt {pre post pre' post' : List (K × V)} {ls rs ls' rs' : List (List (K × V))}
    {m m' : List (K × V)} (hd : pre ++ post = pre' ++ post') (he : ls ++ m :: rs = ls' ++ m' :: rs')
    (h₁ : ls.length = pre.length) (h₂ : ls'.length = pre'.length) (h : pre.length < pre'.length) :
    (before ls pre).length + m.length < (before ls' pre').length := by
  induction pre generalizing pre' ls ls' with
  | nil =>
    have hls : ls = [] := by simpa using h₁
    subst hls
    cases pre' with
    | nil => simp at h
    | cons x pre' =>
      cases ls' with
      | nil => cases h₂
      | cons y ls' =>
        simp only [List.nil_append, List.cons_append, List.cons.injEq] at he
        simp [he.1]
  | cons x pre ih =>
    cases pre' with
    | nil => simp at h
    | cons x' pre' =>
      cases ls with
      | nil => cases h₁
      | cons y ls =>
        cases ls' with
        | nil => cases h₂
        | cons y' ls' =>
          simp only [List.cons_append, List.cons.injEq] at hd he
          have := ih hd.2 he.2 (by simpa using h₁) (by simpa using h₂) (by simpa using h)
          simp [he.1]
          omega

/-- Two leaf edges are the same handle exactly when as many pairs are to their left. -/
theorem At.eq_iff {h : Nat} {n : Node K V h} {p q : List Nat} {l r l' r' : List (K × V)}
    (ha : At n p l r) (hb : At n q l' r') : p = q ↔ l.length = l'.length := by
  induction h generalizing p q l r l' r' with
  | zero => simp [ha.2, hb.2]
  | succ h ih =>
    obtain ⟨pre, post, epre, e, epost, p', l₁, r₁, hd, he, h₁, h₂, rfl, ha, rfl, rfl⟩ := ha
    obtain ⟨pre', post', epre', e', epost', q', l₂, r₂, hd', he', h₃, h₄, rfl, hb, rfl, rfl⟩ := hb
    have hdata : pre ++ post = pre' ++ post' := hd ▸ hd'
    have hedges : epre ++ e :: epost = epre' ++ e' :: epost' := he ▸ he'
    have hmap : epre.map Node.pairs ++ e.pairs :: epost.map Node.pairs =
        epre'.map Node.pairs ++ e'.pairs :: epost'.map Node.pairs := by
      simpa using congrArg (List.map Node.pairs) hedges
    have hl₁ := congrArg List.length ha.pairs
    have hl₂ := congrArg List.length hb.pairs
    rw [List.length_append] at hl₁ hl₂
    rcases Nat.lt_trichotomy pre.length pre'.length with hlt | heq | hgt
    · have := before_lt hdata hmap (by simpa using h₁) (by simpa using h₃) hlt
      simp
      omega
    · obtain ⟨rfl, rfl⟩ := List.append_inj hdata heq
      obtain ⟨rfl, htail⟩ := List.append_inj hedges (h₁.trans h₃.symm)
      obtain ⟨rfl, rfl⟩ := List.cons.inj htail
      simp [ih ha hb]
    · have := before_lt hdata.symm hmap.symm (by simpa using h₃) (by simpa using h₁) hgt
      simp
      omega

theorem firstEdge_spec {h : Nat} (n : Node K V h) (hn : Sized n) :
    ∃ p, firstEdge n = some p ∧ At n p [] n.pairs := by
  induction h with
  | zero => exact ⟨[0], rfl, rfl, rfl⟩
  | succ h ih =>
    obtain ⟨epre, e, epost, he, h₁, h₂⟩ := edges_focus hn.2.1 (List.nil_append _).symm
    have hnil : epre = [] := List.eq_nil_of_length_eq_zero h₁
    subst hnil
    obtain ⟨p, hp, ha⟩ := ih e (hn.2.2 e (by simp [he])).1
    refine ⟨0 :: p, by simp [firstEdge, he, hp], [], InternalNode.data n, [], e, epost, p, [], e.pairs,
      rfl, he, rfl, h₂, rfl, ha, rfl, ?_⟩
    refine Eq.trans (pairs_focus (List.nil_append _).symm he rfl h₂) ?_
    simp

theorem lastEdge_spec {h : Nat} (n : Node K V h) (hn : Sized n) :
    ∃ p, lastEdge n = some p ∧ At n p n.pairs [] := by
  induction h with
  | zero => exact ⟨_, rfl, (List.append_nil _).symm, rfl⟩
  | succ h ih =>
    obtain ⟨epre, e, epost, he, h₁, h₂⟩ := edges_focus hn.2.1 (List.append_nil _).symm
    have hnil : epost = [] := List.eq_nil_of_length_eq_zero h₂
    subst hnil
    obtain ⟨p, hp, ha⟩ := ih e (hn.2.2 e (by simp [he])).1
    refine ⟨(InternalNode.data n).length :: p, by simp [lastEdge, he, ← h₁, hp],
      InternalNode.data n, [], epre, e, [], p, e.pairs, [],
      (List.append_nil _).symm, he, h₁, rfl, rfl, ha, ?_, rfl⟩
    refine Eq.trans (pairs_focus (List.append_nil _).symm he h₁ rfl) ?_
    simp

/-- One call of `next_unchecked` moves the edge behind the next pair. -/
theorem nextFrom_spec {h : Nat} {n : Node K V h} {p : List Nat} {l r : List (K × V)} (hn : Sized n)
    (ha : At n p l r) :
    (r = [] ∧ nextFrom n p = some none) ∨
    ∃ kv r' p', r = kv :: r' ∧ nextFrom n p = some (some (kv, p')) ∧ At n p' (l ++ [kv]) r' := by
  induction h generalizing p l r with
  | zero =>
    obtain ⟨hd, rfl⟩ := ha
    cases r with
    | nil => exact .inl ⟨rfl, by simp [nextFrom, hd]⟩
    | cons kv r => exact .inr ⟨kv, r, [l.length + 1], rfl, by simp [nextFrom, hd], by simp [hd], by simp⟩
  | succ h ih =>
    obtain ⟨pre, post, epre, e, epost, p', l', r', hd, he, h₁, h₂, rfl, ha, rfl, rfl⟩ := ha
    have hget : (InternalNode.edges n)[pre.length]? = some e := by simp [he, ← h₁]
    rcases ih (hn.2.2 e (by simp [he])).1 ha with ⟨rfl, hnone⟩ | ⟨kv, r₁, p₁, rfl, hsome, ha'⟩
    · cases post with
      | nil => exact .inl ⟨rfl, by simp [nextFrom, hget, hnone, hd]⟩
      | cons kv post =>
        cases epost with
        | nil => cases h₂
        | cons e' epost =>
          -- one level up, and down again to the first leaf on the right of the pair
          obtain ⟨p₁, hp₁, ha₁⟩ := firstEdge_spec e' (hn.2.2 e' (by simp [he])).1
          have hget' : (InternalNode.edges n)[pre.length + 1]? = some e' := by
            rw [he, ← h₁]
            simp
          have hl' : l' = e.pairs := by simpa using ha.pairs.symm
          subst hl'
          refine .inr ⟨kv, e'.pairs ++ after post (epost.map Node.pairs), (pre.length + 1) :: p₁, by simp,
            by simp [nextFrom, hget, hnone, hd, hget', hp₁], pre ++ [kv], post, epre ++ [e], e', epost, p₁,
            [], e'.pairs, by simp [hd], by simp [he], by simpa using h₁, by simpa using h₂, by simp, ha₁,
            ?_, rfl⟩
          simp [before, List.zip_append (show (epre.map Node.pairs).length = pre.length by simpa using h₁)]
    · refine .inr ⟨kv, r₁ ++ after post (epost.map Node.pairs), pre.length :: p₁, by simp,
        by simp [nextFrom, hget, hsome], pre, post, epre, e, epost, p₁, l' ++ [kv], r₁, hd, he, h₁, h₂, rfl,
        ha', by simp, rfl⟩

theorem before_concat {pre : List (K × V)} {ls : List (List (K × V))} (m : List (K × V)) (kv : K × V)
    (h : ls.length = pre.length) : before (ls ++ [m]) (pre ++ [kv]) = before ls pre ++ m ++ [kv] := by
  simp [before, List.zip_append h]

/-- One call of `next_back_unchecked` moves the edge before the pair to its left. -/
theorem backFrom_spec {h : Nat} {n : Node K V h} {p : List Nat} {l r : List (K × V)} (hn : Sized n)
    (ha : At n p l r) :
    (l = [] ∧ backFrom n p = some none) ∨
    ∃ kv l' p', l = l' ++ [kv] ∧ backFrom n p = some (some (kv, p')) ∧ At n p' l' (kv :: r) := by
  induction h generalizing p l r with
  | zero =>
    obtain ⟨hd, rfl⟩ := ha
    rcases List.eq_nil_or_concat' l with rfl | ⟨l', kv, rfl⟩
    · exact .inl ⟨rfl, by simp [backFrom]⟩
    · exact .inr ⟨kv, l', [l'.length], by simp, by simp [backFrom, hd], by simp [hd], rfl⟩
  | succ h ih =>
    obtain ⟨pre, post, epre, e, epost, p', l', r', hd, he, h₁, h₂, rfl, ha, rfl, rfl⟩ := ha
    have hget : (InternalNode.edges n)[pre.length]? = some e := by simp [he, ← h₁]
    rcases ih (hn.2.2 e (by simp [he])).1 ha with ⟨rfl, hnone⟩ | ⟨kv, l₁, p₁, rfl, hsome, ha'⟩
    · rcases List.eq_nil_or_concat' pre with rfl | ⟨pre, kv, rfl⟩
      · have hnil : epre = [] := List.eq_nil_of_length_eq_zero h₁
        subst hnil
        rw [List.length_nil] at hget
        exact .inl ⟨rfl, by simp [backFrom, hget, hnone]⟩
      · rcases List.eq_nil_or_concat' epre with rfl | ⟨epre, e', rfl⟩
        · simp at h₁
        · -- one level up, and down again to the last leaf on the left of the pair
          have h₃ : epre.length = pre.length := by simpa using h₁
          obtain ⟨p₁, hp₁, ha₁⟩ := lastEdge_spec e' (hn.2.2 e' (by simp [he])).1
          have hget' : (InternalNode.edges n)[pre.length]? = some e' := by simp [he, ← h₃]
          have hkv : (InternalNode.data n)[pre.length]? = some kv := by simp [hd]
          have hr' : r' = e.pairs := by simpa using ha.pairs.symm
          subst hr'
          replace hget : (InternalNode.edges n)[pre.length + 1]? = some e := by simpa using hget
          refine .inr ⟨kv, before (epre.map Node.pairs) pre ++ e'.pairs, pre.length :: p₁, ?_, ?_,
            pre, kv :: post, epre, e', e :: epost, p₁, e'.pairs, [], by simp [hd], by simp [he], h₃,
            by simpa using h₂, rfl, ha₁, rfl, ?_⟩
          · rw [List.map_append, List.append_nil]
            exact before_concat _ _ (by simpa using h₃)
          · simp [backFrom, hget, hnone, hkv, hget', hp₁]
          · simp
    · refine .inr ⟨kv, before (epre.map Node.pairs) pre ++ l₁, pre.length :: p₁, by simp, ?_,
        pre, post, epre, e, epost, p₁, l₁, kv :: r', hd, he, h₁, h₂, rfl, ha', rfl, rfl⟩
      simp [backFrom, hget, hsome]

/-- Both ends of what is left of a range. -/
structure Spans {h : Nat} (n : Node K V h) (r : Range) (l : List (K × V)) : Prop where
  ends : ∃ pre post, At n r.front pre (l ++ post) ∧ At n r.back (pre ++ l) post

section Ends

variable {h : Nat} {n : Node K V h} {r : Range} {l : List (K × V)}

/-- The handles are equal exactly when nothing is left. -/
theorem Spans.met (hs : Spans n r l) : r.front = r.back ↔ l = [] := by
  obtain ⟨pre, post, hf, hb⟩ := hs.ends
  rw [hf.eq_iff hb]
  simp

theorem Spans.nextUnchecked {kv : K × V} (hn : Sized n) (hs : Spans n r (kv :: l)) :
    ∃ r', r.nextUnchecked n = some (kv, r') ∧ Spans n r' l := by
  obtain ⟨pre, post, hf, hb⟩ := hs.ends
  rcases nextFrom_spec hn hf with ⟨hr, -⟩ | ⟨kv', r', p', hr, hnext, hf'⟩
  · cases hr
  · cases hr
    refine ⟨⟨p', r.back⟩, by simp [Range.nextUnchecked, hnext], pre ++ [kv], post, hf', ?_⟩
    simpa using hb

theorem Spans.nextBackUnchecked {kv : K × V} (hn : Sized n) (hs : Spans n r (l ++ [kv])) :
    ∃ r', r.nextBackUnchecked n = some (kv, r') ∧ Spans n r' l := by
  obtain ⟨pre, post, hf, hb⟩ := hs.ends
  rw [← List.append_assoc] at hb
  rcases backFrom_spec hn hb with ⟨hl, -⟩ | ⟨kv', l', p', hl, hback, hb'⟩
  · simp at hl
  · obtain ⟨rfl, hkv⟩ := List.append_inj' hl rfl
    cases hkv
    refine ⟨⟨r.front, p'⟩, by simp [Range.nextBackUnchecked, hback], pre, kv :: post, ?_, hb'⟩
    simpa using hf

/-- Each call of a range takes from one end of what is left. -/
theorem Spans.call (hn : Sized n) (hs : Spans n r l) (side : Side) :
    ∃ r', r.call n side = some ((pull l side).1, r') ∧ Spans n r' (pull l side).2 := by
  cases side with
  | front =>
    cases l with
    | nil => exact ⟨r, by simp [Range.call, Range.next, hs.met.mpr rfl], hs⟩
    | cons kv l =>
      obtain ⟨r', hnext, hs'⟩ := hs.nextUnchecked hn
      have hne : r.front ≠ r.back := by simp [hs.met]
      exact ⟨r', by simp [Range.call, Range.next, hne, hnext], hs'⟩
  | back =>
    rcases List.eq_nil_or_concat' l with rfl | ⟨l, kv, rfl⟩
    · exact ⟨r, by simp [Range.call, Range.nextBack, hs.met.mpr rfl], hs⟩
    · obtain ⟨r', hback, hs'⟩ := hs.nextBackUnchecked hn
      have hne : r.front ≠ r.back := by simp [hs.met]
      exact ⟨r', by simp [Range.call, Range.nextBack, hne, hback], by simpa using hs'⟩

/-- So does each call of an iterator that counts what is left. -/
theorem Spans.iterCall (hn : Sized n) (hs : Spans n r l) (side : Side) :
    ∃ r', (Iter.mk r l.length).call n side = some ((pull l side).1, ⟨r', (pull l side).2.length⟩) ∧
      Spans n r' (pull l side).2 := by
  cases side with
  | front =>
    cases l with
    | nil => exact ⟨r, by simp [Iter.call, Iter.next], hs⟩
    | cons kv l =>
      obtain ⟨r', hnext, hs'⟩ := hs.nextUnchecked hn
      exact ⟨r', by simp [Iter.call, Iter.next, hnext], hs'⟩
  | back =>
    rcases List.eq_nil_or_concat' l with rfl | ⟨l, kv, rfl⟩
    · exact ⟨r, by simp [Iter.call, Iter.nextBack], hs⟩
    · obtain ⟨r', hback, hs'⟩ := hs.nextBackUnchecked hn
      exact ⟨r', by simp [Iter.call, Iter.nextBack, hback], by simpa using hs'⟩

end Ends

/-- Where a bound cuts the keys in two. -/
inductive Cut (K : Type) where
  | below (key : K)
  | behind (key : K)
  | least
  | greatest

def Bound.asStart : Bound K → Cut K
  | .included key => .below key
  | .excluded key => .behind key
  | .unbounded => .least

def Bound.asStop : Bound K → Cut K
  | .included key => .behind key
  | .excluded key => .below key
  | .unbounded => .greatest

section Order

variable [LinearOrder K]

/-- The keys to the left of the cut. -/
def Cut.left : Cut K → K → Bool
  | .below key, k => decide (k < key)
  | .behind key, k => decide (k ≤ key)
  | .least, _ => false
  | .greatest, _ => true

/-- A found key is next to the subtree, which is then all on one side of it. -/
def Cut.Settled (c : Cut K) (found : Bool) (l : List (K × V)) : Prop :=
  found = true → ∀ a ∈ l,
    match c with
    | .below key => a.1 < key
    | .behind key => key < a.1
    | _ => True

/-- One step of the search for a cut: `minEdge` and `maxEdge` at once. -/
def Cut.edge (c : Cut K) (found : Bool) (data : List (K × V)) : Nat × Bool :=
  match c, found with
  | .below key, false => searchLinear data key
  | .behind key, false => ((searchLinear data key).1 + (searchLinear data key).2.toNat, (searchLinear data key).2)
  | .below _, true => (data.length, true)
  | .behind _, true => (0, true)
  | .least, found => (0, found)
  | .greatest, found => (data.length, found)

theorem minEdge_eq (start : Bound K) (found : Bool) (data : List (K × V)) :
    minEdge start found data = start.asStart.edge found data := by
  cases start <;> cases found <;> simp only [minEdge, Bound.asStart, Cut.edge]
  split <;> rename_i h <;> simp [h]

theorem maxEdge_eq (stop : Bound K) (found : Bool) (data : List (K × V)) :
    maxEdge stop found data = stop.asStop.edge found data := by
  cases stop <;> cases found <;> simp only [maxEdge, Bound.asStop, Cut.edge]
  split <;> rename_i h <;> simp [h]

theorem Cut.Settled.mono {c : Cut K} {found : Bool} {l l' : List (K × V)} (h : c.Settled found l)
    (hsub : ∀ a ∈ l', a ∈ l) : c.Settled found l' :=
  fun hf a ha => h hf a (hsub a ha)

/-- The edge of a step has the pairs to the left of the cut on its left. If the
step has found the key, then that is one of the two pairs beside the edge. -/
theorem Cut.edge_spec (c : Cut K) {found : Bool} {data : List (K × V)} (hs : Sorted data)
    (hf : c.Settled found data) :
    ∃ pre post, data = pre ++ post ∧ (c.edge found data).1 = pre.length ∧
      (∀ a ∈ pre, c.left a.1 = true) ∧ (∀ a ∈ post, c.left a.1 = false) ∧
      ((c.edge found data).2 = true → found = true ∨
        (∃ key v post', c = .below key ∧ post = (key, v) :: post') ∨
        ∃ key v pre', c = .behind key ∧ pre = pre' ++ [(key, v)]) := by
  cases c with
  | least => exact ⟨[], data, rfl, by simp [Cut.edge], by simp, by simp [Cut.left], by simp [Cut.edge]⟩
  | greatest =>
    exact ⟨data, [], by simp, by simp [Cut.edge], by simp [Cut.left], by simp, by simp [Cut.edge]⟩
  | below key =>
    cases found with
    | true => exact ⟨data, [], by simp, rfl, by simpa [Cut.left] using hf rfl, by simp, by simp⟩
    | false =>
      rcases hsearch : searchLinear data key with ⟨i, b⟩
      cases b with
      | true =>
        obtain ⟨pre, v, post, hd, rfl, hpre⟩ := searchLinear_true hsearch
        refine ⟨pre, (key, v) :: post, hd, by simp [Cut.edge, hsearch], by simpa [Cut.left] using hpre, ?_,
          fun _ => .inr (.inl ⟨key, v, post, rfl, rfl⟩)⟩
        rw [hd] at hs
        have hpost := (List.pairwise_cons.mp (List.pairwise_append.mp hs).2.1).1
        simpa [Cut.left] using fun k v' h => le_of_lt (hpost (k, v') h)
      | false =>
        obtain ⟨pre, post, hd, rfl, hpre, hpost⟩ := searchLinear_false hs hsearch
        refine ⟨pre, post, hd, by simp [Cut.edge, hsearch], by simpa [Cut.left] using hpre, ?_,
          by simp [Cut.edge, hsearch]⟩
        simpa [Cut.left] using fun k v' h => le_of_lt (hpost (k, v') h)
  | behind key =>
    cases found with
    | true => exact ⟨[], data, rfl, rfl, by simp, by simpa [Cut.left] using hf rfl, by simp⟩
    | false =>
      rcases hsearch : searchLinear data key with ⟨i, b⟩
      cases b with
      | true =>
        obtain ⟨pre, v, post, hd, rfl, hpre⟩ := searchLinear_true hsearch
        refine ⟨pre ++ [(key, v)], post, by simp [hd], by simp [Cut.edge, hsearch], ?_, ?_,
          fun _ => .inr (.inr ⟨key, v, pre, rfl, rfl⟩)⟩
        · intro a ha
          rcases List.mem_append.mp ha with ha | ha
          · simpa [Cut.left] using le_of_lt (hpre a ha)
          · simp [Cut.left, List.mem_singleton.mp ha]
        · rw [hd] at hs
          have hpost := (List.pairwise_cons.mp (List.pairwise_append.mp hs).2.1).1
          simpa [Cut.left] using fun k v' h => hpost (k, v') h
      | false =>
        obtain ⟨pre, post, hd, rfl, hpre, hpost⟩ := searchLinear_false hs hsearch
        refine ⟨pre, post, hd, by simp [Cut.edge, hsearch], ?_, by simpa [Cut.left] using hpost,
          by simp [Cut.edge, hsearch]⟩
        simpa [Cut.left] using fun k v' h => le_of_lt (hpre (k, v') h)

/-- The cut takes keys from below. -/
theorem Cut.left_of_lt {c : Cut K} {a b : K} (h : a < b) (hb : c.left b = true) : c.left a = true := by
  cases c with
  | below key => simpa [Cut.left] using h.trans (by simpa [Cut.left] using hb)
  | behind key => simpa [Cut.left] using h.le.trans (by simpa [Cut.left] using hb)
  | least => exact hb
  | greatest => rfl

/-- The leaf edge stands where the cut is. -/
def Cut.Parts (c : Cut K) {h : Nat} (n : Node K V h) (p : List Nat) : Prop :=
  ∃ l r, At n p l r ∧ (∀ a ∈ l, c.left a.1 = true) ∧ ∀ a ∈ r, c.left a.1 = false

/-- A step at an inner node: the child holds the cut, and what has been found is beside it. -/
theorem Cut.step {c : Cut K} {found : Bool} {h : Nat} {n : Node K V (h + 1)} (hn : Sized n)
    (hs : Sorted n.pairs) (hf : c.Settled found n.pairs) :
    ∃ e, (InternalNode.edges n)[(c.edge found (InternalNode.data n)).1]? = some e ∧
      Sized e ∧ Sorted e.pairs ∧ c.Settled (c.edge found (InternalNode.data n)).2 e.pairs ∧
      ∀ p, c.Parts e p → c.Parts n ((c.edge found (InternalNode.data n)).1 :: p) := by
  have hdata : (InternalNode.data n).Sublist n.pairs := sublist_weave (by simpa using hn.2.1)
  obtain ⟨pre, post, hd, hi, hpre, hpost, hfound⟩ :=
    c.edge_spec (hs.sublist hdata) (hf.mono fun a ha => hdata.subset ha)
  obtain ⟨epre, e, epost, he, h₁, h₂⟩ := edges_focus hn.2.1 hd
  have hpairs : n.pairs = before (epre.map Node.pairs) pre ++ e.pairs ++
    after post (epost.map Node.pairs) := pairs_focus hd he h₁ h₂
  have hside := hs
  rw [hpairs] at hside
  obtain ⟨hs₁, hs₂, hs₃⟩ := List.pairwise_append.mp hside
  obtain ⟨hs₄, hs₅, hs₆⟩ := List.pairwise_append.mp hs₁
  rw [hi]
  refine ⟨e, by simp [he, ← h₁], (hn.2.2 e (by simp [he])).1, hs₅, ?_, ?_⟩
  · intro hnow
    rcases hfound hnow with hold | ⟨key, v, post', rfl, rfl⟩ | ⟨key, v, pre', rfl, rfl⟩
    · exact (hf.mono fun a ha => by simp [hpairs, ha]) hold
    · -- the key is the pair to the right of the child
      cases epost with
      | nil => cases h₂
      | cons e' epost =>
        intro a ha
        exact hs₃ a (by simp [ha]) (key, v) (by simp)
    · rcases List.eq_nil_or_concat' epre with rfl | ⟨epre, e', rfl⟩
      · simp at h₁
      · intro a ha
        refine hs₆ (key, v) ?_ a ha
        rw [List.map_append, List.map_singleton, before_concat _ _ (by simpa using h₁)]
        simp
  · rintro p ⟨l, r, ha, hl, hr⟩
    refine ⟨before (epre.map Node.pairs) pre ++ l, r ++ after post (epost.map Node.pairs),
      ⟨pre, post, epre, e, epost, p, l, r, hd, he, h₁, h₂, rfl, ha, rfl, rfl⟩, ?_, ?_⟩
    · intro a ha
      rcases List.mem_append.mp ha with ha | ha
      · obtain ⟨x, hx, rfl | hax⟩ := before_bound hs₄ a ha
        · exact hpre _ hx
        · exact Cut.left_of_lt hax (hpre x hx)
      · exact hl a ha
    · intro a ha
      rcases List.mem_append.mp ha with ha | ha
      · exact hr a ha
      · obtain ⟨x, hx, rfl | hax⟩ := after_bound hs₂ a ha
        · exact hpost _ hx
        · by_contra hleft
          have hx' := Cut.left_of_lt hax (by simpa using hleft)
          simp [hpost x hx] at hx'

/-- The last step, at a leaf. -/
theorem Cut.step_leaf {c : Cut K} {found : Bool} {n : Node K V 0} (hs : Sorted n.pairs)
    (hf : c.Settled found n.pairs) : c.Parts n [(c.edge found (Node.data n)).1] := by
  obtain ⟨pre, post, hd, hi, hpre, hpost, -⟩ := c.edge_spec (show Sorted (Node.data n) from hs) hf
  exact ⟨pre, post, ⟨hd, by rw [hi]⟩, hpre, hpost⟩

/-- On one node, a cut further to the left has no larger edge. -/
theorem Cut.edge_le {c d : Cut K} {found found' : Bool} {data : List (K × V)} (hs : Sorted data)
    (hc : c.Settled found data) (hd : d.Settled found' data)
    (hle : ∀ k, c.left k = true → d.left k = true) :
    (c.edge found data).1 ≤ (d.edge found' data).1 := by
  have hcount : ∀ (c : Cut K) found, c.Settled found data →
      (c.edge found data).1 = data.countP fun a => c.left a.1 := by
    intro c found hc
    obtain ⟨pre, post, rfl, hi, hpre, hpost, -⟩ := c.edge_spec hs hc
    rw [hi, List.countP_append, List.countP_eq_length.mpr hpre,
      List.countP_eq_zero.mpr (by simpa using hpost)]
    simp
  rw [hcount c found hc, hcount d found' hd]
  exact List.countP_mono_left fun a _ ha => hle a.1 ha

/-- A search with bounds that do not cross ends with both cuts, and the check
on the order of the two edges never fails. -/
theorem rangeSearchFrom_spec {start stop : Bound K}
    (hle : ∀ k, start.asStart.left k = true → stop.asStop.left k = true) {h : Nat}
    {minNode maxNode : Node K V h} {minFound maxFound diverged : Bool}
    (hn₁ : Sized minNode) (hs₁ : Sorted minNode.pairs) (hf₁ : start.asStart.Settled minFound minNode.pairs)
    (hn₂ : Sized maxNode) (hs₂ : Sorted maxNode.pairs) (hf₂ : stop.asStop.Settled maxFound maxNode.pairs)
    (hsame : diverged = false → minNode = maxNode) :
    ∃ f b, rangeSearchFrom start stop minNode maxNode minFound maxFound diverged = some (f, b) ∧
      start.asStart.Parts minNode f ∧ stop.asStop.Parts maxNode b := by
  induction h generalizing minFound maxFound diverged with
  | zero =>
    have hok : ¬ (diverged = false ∧ (stop.asStop.edge maxFound (Node.data maxNode)).1 <
        (start.asStart.edge minFound (Node.data minNode)).1) := by
      rintro ⟨hd, hlt⟩
      obtain rfl := hsame hd
      exact absurd (Cut.edge_le (show Sorted (Node.data minNode) from hs₁) hf₁ hf₂ hle) (by omega)
    refine ⟨_, _, ?_, Cut.step_leaf hs₁ hf₁, Cut.step_leaf hs₂ hf₂⟩
    simp only [rangeSearchFrom, minEdge_eq, maxEdge_eq]
    rw [if_neg hok]
  | succ h ih =>
    have hsub : ∀ {n : Node K V (h + 1)}, Sized n → (InternalNode.data n).Sublist n.pairs :=
      fun hn => sublist_weave (by simpa using hn.2.1)
    have hok : ¬ (diverged = false ∧ (stop.asStop.edge maxFound (InternalNode.data maxNode)).1 <
        (start.asStart.edge minFound (InternalNode.data minNode)).1) := by
      rintro ⟨hd, hlt⟩
      obtain rfl := hsame hd
      have hsd := hsub hn₁
      exact absurd (Cut.edge_le (hs₁.sublist hsd) (hf₁.mono fun a ha => hsd.subset ha)
        (hf₂.mono fun a ha => hsd.subset ha) hle) (by omega)
    obtain ⟨e₁, he₁, hn₁', hs₁', hf₁', hp₁⟩ := Cut.step hn₁ hs₁ hf₁
    obtain ⟨e₂, he₂, hn₂', hs₂', hf₂', hp₂⟩ := Cut.step hn₂ hs₂ hf₂
    have hsame' : (diverged || decide ((start.asStart.edge minFound (InternalNode.data minNode)).1 ≠
        (stop.asStop.edge maxFound (InternalNode.data maxNode)).1)) = false → e₁ = e₂ := by
      intro hd
      simp only [ne_eq, decide_not, Bool.or_eq_false_iff, Bool.not_eq_false', decide_eq_true_eq] at hd
      obtain rfl := hsame hd.1
      rw [hd.2, he₂] at he₁
      exact (Option.some.inj he₁).symm
    obtain ⟨f, b, hsearch, hf, hb⟩ := ih hn₁' hs₁' hf₁' hn₂' hs₂' hf₂' hsame'
    refine ⟨_, _, ?_, hp₁ f hf, hp₂ b hb⟩
    simp only [rangeSearchFrom, minEdge_eq, maxEdge_eq]
    rw [if_neg hok, he₁, he₂, Option.bind_some, Option.bind_some, hsearch]
    rfl

/-- The panics of `range_search` are the bounds whose cuts cross. -/
theorem left_le_of_not_crossed {start stop : Bound K} (h : crossed start stop = false) (k : K)
    (hk : start.asStart.left k = true) : stop.asStop.left k = true := by
  cases start with
  | unbounded => simp [Bound.asStart, Cut.left] at hk
  | included s =>
    simp only [Bound.asStart, Cut.left, decide_eq_true_eq] at hk
    cases stop with
    | unbounded => rfl
    | included e =>
      simp only [crossed, decide_eq_false_iff_not, not_lt] at h
      simpa [Bound.asStop, Cut.left] using hk.le.trans h
    | excluded e =>
      simp only [crossed, decide_eq_false_iff_not, not_lt] at h
      simpa [Bound.asStop, Cut.left] using hk.trans_le h
  | excluded s =>
    simp only [Bound.asStart, Cut.left, decide_eq_true_eq] at hk
    cases stop with
    | unbounded => rfl
    | included e =>
      simp only [crossed, decide_eq_false_iff_not, not_lt] at h
      simpa [Bound.asStop, Cut.left] using hk.trans h
    | excluded e =>
      simp only [crossed, Bool.or_eq_false_iff, decide_eq_false_iff_not, not_lt] at h
      simpa [Bound.asStop, Cut.left] using hk.trans_lt (lt_of_le_of_ne h.2 h.1)

theorem contains_eq (start stop : Bound K) (k : K) :
    contains start stop k = (!start.asStart.left k && stop.asStop.left k) := by
  cases start <;> cases stop <;>
    simp [contains, Bound.asStart, Bound.asStop, Cut.left, ← decide_not, not_lt, not_le]

/-- A search with bounds that do not cross spans the pairs within the bounds. -/
theorem rangeSearch_spec {start stop : Bound K} {h : Nat} {n : Node K V h} (hn : Sized n)
    (hs : Sorted n.pairs) (hc : crossed start stop = false) :
    ∃ r, rangeSearch start stop n = some r ∧
      Spans n r (n.pairs.filter fun a => contains start stop a.1) := by
  have hle := left_le_of_not_crossed hc
  have hf : ∀ c : Cut K, c.Settled false n.pairs := fun c h => by cases h
  obtain ⟨f, b, hsearch, ⟨l₁, r₁, ha₁, hl₁, hr₁⟩, l₂, r₂, ha₂, hl₂, hr₂⟩ :=
    rangeSearchFrom_spec hle hn hs (hf _) hn hs (hf _) (fun _ : false = false => rfl)
  refine ⟨⟨f, b⟩, by simp [rangeSearch, hc, hsearch], l₁, r₂, ?_⟩
  -- what is left of the front is also left of the back
  have hp : l₁ ++ r₁ = l₂ ++ r₂ := ha₁.pairs ▸ ha₂.pairs
  have hpre : l₁ <+: l₂ := by
    rcases List.prefix_or_prefix_of_prefix (List.prefix_append l₁ r₁)
      (hp ▸ List.prefix_append l₂ r₂) with h | ⟨m, rfl⟩
    · exact h
    · cases m with
      | nil => simp
      | cons a m =>
        have hr : r₂ = a :: m ++ r₁ := by simpa using hp.symm
        have hleft := hle a.1 (hl₁ a (by simp))
        simp [hr₂ a (by simp [hr])] at hleft
  obtain ⟨m, rfl⟩ := hpre
  have hr : r₁ = m ++ r₂ := by simpa using hp
  subst hr
  have hfilter : (n.pairs.filter fun a => contains start stop a.1) = m := by
    have h₁ : l₁.filter (fun a => contains start stop a.1) = [] := by
      simpa [contains_eq] using fun k v hk h => absurd (hl₁ (k, v) hk) (by simp [h])
    have h₂ : m.filter (fun a => contains start stop a.1) = m := by
      simpa [contains_eq] using fun k v hk => ⟨hr₁ (k, v) (by simp [hk]), hl₂ (k, v) (by simp [hk])⟩
    have h₃ : r₂.filter (fun a => contains start stop a.1) = [] := by
      simpa [contains_eq] using fun k v hk _ => hr₂ (k, v) hk
    rw [ha₁.pairs, List.filter_append, List.filter_append, h₁, h₂, h₃]
    simp
  rw [hfilter]
  exact ⟨ha₁, ha₂⟩

theorem range_spec {m : BTreeMap K V} (hm : Good m) {start stop : Bound K}
    (hc : crossed start stop = false) :
    ∃ r, m.range start stop = some r ∧
      Spans m.asRef.2 r (m.pairs.filter fun a => contains start stop a.1) :=
  rangeSearch_spec hm.sized hm.sorted hc

/-- `iter()` spans the whole map. -/
theorem bothEnds_spec {m : BTreeMap K V} (hm : Good m) :
    ∃ r, m.bothEnds = some ⟨r, m.length⟩ ∧ Spans m.asRef.2 r m.pairs := by
  obtain ⟨f, hf, haf⟩ := firstEdge_spec m.asRef.2 hm.sized
  obtain ⟨b, hb, hab⟩ := lastEdge_spec m.asRef.2 hm.sized
  refine ⟨⟨f, b⟩, by simp [BTreeMap.bothEnds, hf, hb], [], [], ?_, ?_⟩
  · simpa [BTreeMap.pairs] using haf
  · simpa [BTreeMap.pairs] using hab

end Order

end Crabos.BTree
