import Mathlib
import Crabos.Lib.Run
import Crabos.Btree.Remove

/-!
# The B-tree map (`alloc_collections/src/btree/map.rs`)

`insert` counts the new pair before it knows that the splits on its way will
find memory. The map is run through any sequence of insertions and removals,
with any pattern of allocation failures, and the theorem says exactly which
insertions leave the map as it was when they fail.
-/
namespace Crabos.BTree

open Crabos.Weave Crabos.Run

variable {K V : Type}

structure AllocErr where
  deriving DecidableEq, Repr

/-- The root is the shared empty node until the first insertion. -/
inductive Root (K V : Type) where
  | shared
  | owned (h : Nat) (node : Node K V h)

structure BTreeMap (K V : Type) where
  root : Root K V
  length : Nat

/-- The outcomes of the allocations of one insertion: for a first root, for
splitting the node of each height, and for a new level. -/
structure Allocs where
  newLeaf : Bool
  split : Nat → Bool
  pushLevel : Bool

namespace BTreeMap

def new : BTreeMap K V := ⟨.shared, 0⟩

/-- `as_ref`: the shared root is an empty leaf. -/
def asRef (m : BTreeMap K V) : (h : Nat) × Node K V h :=
  match m.root with
  | .shared => ⟨0, ([] : List (K × V))⟩
  | .owned h n => ⟨h, n⟩

/-- The pairs that the tree stores. -/
def pairs (m : BTreeMap K V) : List (K × V) := m.asRef.2.pairs

def ensureRootIsOwned (m : BTreeMap K V) (ok : Bool) : Except AllocErr (BTreeMap K V) :=
  match m.root with
  | .shared => if ok then .ok ⟨.owned 0 ([] : List (K × V)), m.length⟩ else .error ⟨⟩
  | .owned _ _ => .ok m

/-- `VacantEntry::insert` has counted the pair before any of the splits. -/
def insert [LinearOrder K] (m : BTreeMap K V) (key : K) (value : V) (a : Allocs) :
    Option (Except AllocErr (Option V) × BTreeMap K V) :=
  match m.ensureRootIsOwned a.newLeaf with
  | .error e => some (.error e, m)
  | .ok m' =>
    match m'.root with
    | .shared => none
    | .owned h n => (insertNode a.split key value n).map fun
      | .occupied old n' => (.ok (some old), ⟨.owned h n', m'.length⟩)
      | .fit n' => (.ok none, ⟨.owned h n', m'.length + 1⟩)
      | .split left kv right =>
        if a.pushLevel then (.ok none, ⟨.owned (h + 1) ⟨[kv], [left, right]⟩, m'.length + 1⟩)
        else (.error ⟨⟩, ⟨.owned h left, m'.length + 1⟩)
      | .failed n' => (.error ⟨⟩, ⟨.owned h n', m'.length + 1⟩)

/-- `pop_level`: the first child of the root becomes the root. -/
def popLevel : {h : Nat} → Node K V h → Option (Root K V)
  | 0, _ => none
  | h + 1, n => (InternalNode.edges n)[0]?.map (Root.owned h)

def remove [LinearOrder K] (m : BTreeMap K V) (key : K) : Option (Option V × BTreeMap K V) :=
  match m.root with
  | .shared => some (none, m)
  | .owned h n => (removeNode key n).bind fun
    | none => some (none, m)
    | some (old, n', status) =>
      (if status = .popLevel then popLevel n' else some (.owned h n')).map fun root =>
        (some old.2, ⟨root, m.length - 1⟩)

/-- The pairs yielded by `length` calls of `next`. -/
def collect {h : Nat} : Nat → Position K V h → Option (List (K × V))
  | 0, _ => some []
  | length + 1, p => (nextUnchecked p).bind fun (kv, p') => (collect length p').map (kv :: ·)

/-- `iter()`: it trusts the length of the map. -/
def iter (m : BTreeMap K V) : Option (List (K × V)) :=
  (firstLeafEdge m.asRef.2).bind (collect m.length)

end BTreeMap

/-- What is to the right of a leaf edge. -/
def Position.rest : {h : Nat} → Position K V h → List (K × V)
  | 0, p => p
  | _ + 1, (p, kvs, edges) => Position.rest p ++ after kvs (edges.map Node.pairs)

def Position.Ok : {h : Nat} → Position K V h → Prop
  | 0, _ => True
  | _ + 1, (p, kvs, edges) => Position.Ok p ∧ edges.length = kvs.length ∧ ∀ e ∈ edges, Sized e

theorem firstLeafEdge_spec {h : Nat} (n : Node K V h) (hn : Sized n) :
    ∃ p, firstLeafEdge n = some p ∧ p.Ok ∧ p.rest = n.pairs := by
  induction h with
  | zero => exact ⟨_, rfl, trivial, rfl⟩
  | succ h ih =>
    obtain ⟨epre, e, epost, he, h₁, h₂⟩ := edges_focus hn.2.1 (List.nil_append _).symm
    have hnil : epre = [] := List.eq_nil_of_length_eq_zero h₁
    subst hnil
    obtain ⟨p, hp, hok, hr⟩ := ih e (hn.2.2 e (by rw [he]; simp)).1
    refine ⟨(p, InternalNode.data n, epost), ?_, ⟨hok, h₂, ?_⟩, ?_⟩
    · rw [firstLeafEdge, he, List.nil_append, List.head?_cons, Option.bind_some, hp]
      rfl
    · intro x hx
      exact (hn.2.2 x (he ▸ List.mem_cons_of_mem _ hx)).1
    · refine Eq.trans ?_ (pairs_focus (List.nil_append _).symm he h₁ h₂).symm
      rw [Position.rest, hr]
      rfl

/-- The next pair is the first one to the right of the edge. -/
theorem nextUnchecked_spec {h : Nat} (p : Position K V h) (hp : p.Ok) :
    (p.rest = [] ∧ nextUnchecked p = none) ∨
    ∃ kv p', nextUnchecked p = some (kv, p') ∧ p'.Ok ∧ p.rest = kv :: p'.rest := by
  induction h with
  | zero =>
    match p with
    | ([] : List (K × V)) => exact .inl ⟨rfl, rfl⟩
    | (kv :: kvs : List (K × V)) => exact .inr ⟨kv, kvs, rfl, trivial, rfl⟩
  | succ h ih =>
    obtain ⟨p, kvs, edges⟩ := p
    obtain ⟨hok, hlen, hall⟩ := hp
    rcases ih p hok with ⟨hr, hn⟩ | ⟨kv, p', hn, hok', hr⟩
    · match kvs, edges, hlen with
      | [], [], _ =>
        refine .inl ⟨by rw [Position.rest, hr]; rfl, ?_⟩
        rw [nextUnchecked, hn]
        rfl
      | kv :: kvs, e :: edges, hlen =>
        obtain ⟨p', hf, hok', hr'⟩ := firstLeafEdge_spec e (hall e (by simp))
        refine .inr ⟨kv, (p', kvs, edges), ?_, ⟨hok', by simpa using hlen, ?_⟩, ?_⟩
        · rw [nextUnchecked, hn]
          simp only [nextAbove]
          rw [hf]
          rfl
        · exact fun x hx => hall x (List.mem_cons_of_mem _ hx)
        · rw [Position.rest, hr, Position.rest, hr', List.map_cons, after_cons]
          rfl
    · refine .inr ⟨kv, (p', kvs, edges), ?_, ⟨hok', hlen, hall⟩, ?_⟩
      · rw [nextUnchecked, hn]
      · rw [Position.rest, hr, Position.rest]
        rfl

theorem collect_spec {h : Nat} (length : Nat) (p : Position K V h) (hp : p.Ok) :
    BTreeMap.collect length p =
      if length ≤ p.rest.length then some (p.rest.take length) else none := by
  induction length generalizing p with
  | zero => simp [BTreeMap.collect]
  | succ length ih =>
    rw [BTreeMap.collect]
    rcases nextUnchecked_spec p hp with ⟨hr, hn⟩ | ⟨kv, p', hn, hok, hr⟩
    · simp [hn, hr]
    · rw [hn, hr, Option.bind_some]
      simp only
      rw [ih p' hok]
      by_cases hle : length ≤ p'.rest.length
      · simp [hle]
      · simp [hle]

theorem asRef_owned (h : Nat) (n : Node K V h) (length : Nat) :
    (⟨.owned h n, length⟩ : BTreeMap K V).asRef = ⟨h, n⟩ := rfl

theorem pairs_owned (h : Nat) (n : Node K V h) (length : Nat) :
    (⟨.owned h n, length⟩ : BTreeMap K V).pairs = n.pairs := rfl

section Order

variable [LinearOrder K]

/-- The tree is in order, and its length counts at least what it stores. -/
structure Good (m : BTreeMap K V) : Prop where
  shared : m.root = .shared → m.length = 0
  sized : Sized m.asRef.2
  sorted : Sorted m.pairs
  root : 0 < m.asRef.1 → 0 < m.asRef.2.len
  length : m.pairs.length ≤ m.length

/-- `iter` is exact if and only if the length is. -/
theorem iter_spec {m : BTreeMap K V} (hm : Good m) :
    m.iter = some m.pairs ↔ m.length = m.pairs.length := by
  obtain ⟨p, hp, hok, hr⟩ := firstLeafEdge_spec m.asRef.2 hm.sized
  have hlen := hm.length
  rw [BTreeMap.iter, hp, Option.bind_some, collect_spec _ p hok, hr]
  constructor
  · intro h
    split at h
    · rename_i hle
      exact Nat.le_antisymm hle hlen
    · cases h
  · intro h
    have hp : m.asRef.2.pairs = m.pairs := rfl
    rw [hp, if_pos (Nat.le_of_eq h), h, List.take_length]

theorem new_good : Good (BTreeMap.new : BTreeMap K V) where
  shared := fun _ => rfl
  sized := Nat.zero_le _
  sorted := List.Pairwise.nil
  root := fun h => absurd h (Nat.lt_irrefl 0)
  length := Nat.le_refl 0

/-- Every allocation that the insertion is going to make succeeds: one for
each full node at the end of the search path, and one for a new level if that
takes in the root. -/
def Supplied (key : K) (a : Allocs) {h : Nat} (n : Node K V h) : Prop :=
  (∀ j < fullRun key n, a.split j = true) ∧ (fullRun key n = h + 1 → a.pushLevel = true)

/-- The map is still on the shared root, or holds the key, or there is memory. -/
def Covered (m : BTreeMap K V) (key : K) (a : Allocs) : Prop :=
  m.root = .shared ∨ (∃ v, (key, v) ∈ m.pairs) ∨ Supplied key a m.asRef.2

/-- If the insertion fails the map is as before, and its length and its
iterator agree with what it stores. -/
def FailsCleanly (m : BTreeMap K V) (key : K) (value : V) (a : Allocs) : Prop :=
  ∀ m', m.insert key value a = some (.error ⟨⟩, m') →
    m'.pairs = m.pairs ∧ m'.length = m'.pairs.length ∧ m'.iter = some m'.pairs ∧ Sorted m'.pairs

theorem good_owned {h : Nat} {n : Node K V h} {length : Nat} (hn : Sized n) (hs : Sorted n.pairs)
    (hr : 0 < h → 0 < n.len) (hl : n.pairs.length ≤ length) :
    Good (⟨.owned h n, length⟩ : BTreeMap K V) :=
  ⟨(fun he => nomatch he), hn, hs, hr, hl⟩

/-- An insertion into an owned tree fails exactly when it is not supplied, and
then the length has been counted up all the same. -/
theorem insert_owned {h : Nat} {n : Node K V h} {length : Nat} (key : K) (value : V) (a : Allocs)
    (hm : Good (⟨.owned h n, length⟩ : BTreeMap K V)) :
    ∃ r m', BTreeMap.insert ⟨.owned h n, length⟩ key value a = some (r, m') ∧ Good m' ∧
      ((∃ old, r = .ok old) ∧ ((∃ v, (key, v) ∈ n.pairs) ∨ Supplied key a n) ∨
        r = .error ⟨⟩ ∧ (∀ v, (key, v) ∉ n.pairs) ∧ ¬ Supplied key a n ∧ m'.length = length + 1) := by
  have hlen : n.pairs.length ≤ length := hm.length
  obtain ⟨r, hr, hspec⟩ := insertNode_spec a.split key value n hm.sized hm.sorted
  rw [BTreeMap.insert, BTreeMap.ensureRootIsOwned]
  simp only
  rw [hr, Option.map_some]
  cases r with
  | occupied old n' =>
    obtain ⟨hsz, hl, xs, ys, hx, hy⟩ := hspec
    refine ⟨_, _, rfl, good_owned hsz ?_ (fun h => hl ▸ hm.root h) ?_, .inl ⟨⟨_, rfl⟩, .inl ⟨old, ?_⟩⟩⟩
    · have hs := hm.sorted
      rw [pairs_owned, hx] at hs
      rw [hy]
      refine List.pairwise_append.mpr ?_
      obtain ⟨h₁, h₂, h₃⟩ := List.pairwise_append.mp hs
      obtain ⟨h₄, h₅⟩ := List.pairwise_cons.mp h₂
      refine ⟨h₁, List.pairwise_cons.mpr ⟨h₄, h₅⟩, ?_⟩
      intro b hb c hc
      rcases List.mem_cons.mp hc with rfl | hc
      · exact h₃ b hb (key, old) (by simp)
      · exact h₃ b hb c (by simp [hc])
    · rw [hy]
      rw [hx] at hlen
      simpa using hlen
    · rw [hx]
      simp
  | fit n' =>
    obtain ⟨hsz, hl, hp, hrun, hok⟩ := hspec
    refine ⟨_, _, rfl, good_owned hsz (placed_sorted hp hm.sorted) ?_ ?_, .inl ⟨⟨_, rfl⟩, .inr ⟨hok, ?_⟩⟩⟩
    · exact fun h => Nat.lt_of_lt_of_le (hm.root h) hl
    · rw [placed_length hp]
      omega
    · intro h
      omega
  | split left kv right =>
    obtain ⟨hsl, hsr, hp, hrun, hok⟩ := hspec
    have hsorted := placed_sorted hp hm.sorted
    have hcount := placed_length hp
    simp only
    split
    · rename_i hpush
      refine ⟨_, _, rfl, good_owned ⟨(by decide : 1 ≤ CAPACITY), rfl, ?_⟩ ?_ (fun _ => Nat.zero_lt_one) ?_,
        .inl ⟨⟨_, rfl⟩, .inr ⟨hok, fun _ => hpush⟩⟩⟩
      · intro e he
        rcases List.mem_cons.mp he with rfl | he
        · exact hsl
        · rw [List.mem_singleton.mp he]
          exact hsr
      · exact hsorted
      · exact Nat.le_trans (Nat.le_of_eq hcount) (Nat.succ_le_succ hlen)
    · rename_i hpush
      refine ⟨_, _, rfl, good_owned hsl.1 ?_ ?_ ?_, .inr ⟨rfl, fun v => placed_absent hp, ?_, rfl⟩⟩
      · exact (List.pairwise_append.mp hsorted).1
      · exact fun _ => Nat.lt_of_lt_of_le (by decide) hsl.2
      · rw [List.length_append, List.length_cons] at hcount
        omega
      · exact fun hsup => hpush (hsup.2 hrun)
  | failed n' =>
    obtain ⟨hsz, hl, ⟨l, hp, hsub⟩, j, hj, hok⟩ := hspec
    refine ⟨_, _, rfl, good_owned hsz ((placed_sorted hp hm.sorted).sublist hsub) ?_ ?_,
      .inr ⟨rfl, fun v => placed_absent hp, ?_, rfl⟩⟩
    · intro h
      have hpos := hm.root h
      have hsmall : 0 < SMALLEST := by decide
      rw [asRef_owned] at hpos
      simp only at hpos
      omega
    · have hle := hsub.length_le
      rw [placed_length hp] at hle
      omega
    · intro hsup
      rw [hsup.1 j hj] at hok
      cases hok

theorem insert_shared {length : Nat} (key : K) (value : V) (a : Allocs)
    (hm : Good (⟨.shared, length⟩ : BTreeMap K V)) :
    ∃ r m', BTreeMap.insert ⟨.shared, length⟩ key value a = some (r, m') ∧ Good m' ∧
      ((∃ old, r = .ok old) ∨ m' = ⟨.shared, length⟩) := by
  rw [BTreeMap.insert, BTreeMap.ensureRootIsOwned]
  simp only
  split
  · rename_i e he
    exact ⟨_, _, rfl, hm, .inr rfl⟩
  · rename_i m' he
    split at he
    · cases he
      refine ⟨_, _, rfl, ?_, .inl ⟨none, rfl⟩⟩
      have hs : Sorted [(key, value)] := List.pairwise_singleton _ _
      exact good_owned (by decide : 1 ≤ CAPACITY) hs (fun h => absurd h (Nat.lt_irrefl 0))
        (Nat.le_add_left 1 length)
    · cases he

theorem insert_good {m : BTreeMap K V} (key : K) (value : V) (a : Allocs) (hm : Good m) :
    ∃ r m', m.insert key value a = some (r, m') ∧ Good m' := by
  obtain ⟨root, length⟩ := m
  cases root with
  | shared =>
    obtain ⟨r, m', hi, hg, -⟩ := insert_shared key value a hm
    exact ⟨r, m', hi, hg⟩
  | owned h n =>
    obtain ⟨r, m', hi, hg, -⟩ := insert_owned key value a hm
    exact ⟨r, m', hi, hg⟩

theorem remove_good {m : BTreeMap K V} (key : K) (hm : Good m) :
    ∃ r m', m.remove key = some (r, m') ∧ Good m' := by
  obtain ⟨root, length⟩ := m
  cases root with
  | shared => exact ⟨none, _, rfl, hm⟩
  | owned h n =>
    obtain ⟨r, hr, hspec⟩ := removeNode_spec key n hm.sized hm.sorted hm.root
    rw [BTreeMap.remove]
    simp only
    rw [hr, Option.bind_some]
    match r, hspec with
    | none, _ => exact ⟨none, _, rfl, hm⟩
    | some (old, n', status), ⟨hsz, hsh, _, xs, ys, hx, hy⟩ =>
      have hsorted : Sorted n'.pairs := by
        have hs := hm.sorted
        rw [pairs_owned, hx] at hs
        rw [hy]
        exact hs.sublist ((List.Sublist.refl xs).append (List.sublist_cons_self _ _))
      have hlen : n'.pairs.length ≤ length - 1 := by
        have hl := hm.length
        rw [pairs_owned, hx, List.length_append, List.length_cons] at hl
        rw [hy, List.length_append]
        simp only at hl
        omega
      rcases hsh with ⟨rfl, hl⟩ | ⟨rfl, hl, hpos⟩ | ⟨rfl, h0, -, hh⟩
      · exact ⟨_, _, rfl, good_owned hsz hsorted (fun h => hl ▸ hm.root h) hlen⟩
      · exact ⟨_, _, rfl, good_owned hsz hsorted hpos hlen⟩
      · cases h with
        | zero => cases hh
        | succ h =>
          -- the root is left without pairs, so it has just one child
          have hdata : InternalNode.data n' = [] := List.eq_nil_of_length_eq_zero h0
          have hone : (InternalNode.edges n').length = 1 := by rw [hsz.2.1, hdata]; rfl
          obtain ⟨e, he⟩ := List.length_eq_one_iff.mp hone
          have hgood := hsz.2.2 e (by rw [he]; simp)
          have hpairs : e.pairs = n'.pairs := by
            have hw : n'.pairs = weave ((InternalNode.edges n').map Node.pairs) (InternalNode.data n') := rfl
            rw [hw, he, hdata]
            rfl
          refine ⟨some old.2, ⟨.owned h e, length - 1⟩, ?_, ?_⟩
          · simp only [if_true]
            rw [BTreeMap.popLevel, he]
            rfl
          · exact good_owned hgood.1 (hpairs ▸ hsorted)
              (fun _ => Nat.lt_of_lt_of_le (by decide) hgood.2) (hpairs ▸ hlen)

inductive Op (K V : Type) where
  | insert (key : K) (value : V) (a : Allocs)
  | remove (key : K)

def step (m : BTreeMap K V) : Op K V → Option (BTreeMap K V)
  | .insert key value a => (m.insert key value a).map Prod.snd
  | .remove key => (m.remove key).map Prod.snd

theorem step_good (m : BTreeMap K V) (op : Op K V) (m' : BTreeMap K V) (hm : Good m)
    (hs : step m op = some m') : Good m' := by
  cases op with
  | insert key value a =>
    obtain ⟨r, m₁, hi, hg⟩ := insert_good key value a hm
    rw [step, hi] at hs
    cases hs
    exact hg
  | remove key =>
    obtain ⟨r, m₁, hi, hg⟩ := remove_good key hm
    rw [step, hi] at hs
    cases hs
    exact hg

theorem failsCleanly_iff {m : BTreeMap K V} (key : K) (value : V) (a : Allocs) (hm : Good m) :
    FailsCleanly m key value a ↔ Covered m key a := by
  obtain ⟨root, length⟩ := m
  cases root with
  | shared =>
    refine ⟨fun _ => .inl rfl, fun _ => ?_⟩
    obtain ⟨r, m', hi, hg, hout⟩ := insert_shared key value a hm
    intro m₁ h₁
    rw [hi] at h₁
    cases h₁
    rcases hout with ⟨old, hold⟩ | rfl
    · cases hold
    · have hlen : length = 0 := hm.shared rfl
      exact ⟨rfl, hlen, (iter_spec hm).mpr hlen, hm.sorted⟩
  | owned h n =>
    obtain ⟨r, m', hi, hg, ⟨⟨old, rfl⟩, hc⟩ | ⟨rfl, habs, hsup, hlen⟩⟩ := insert_owned key value a hm
    · refine ⟨fun _ => .inr hc, fun _ => ?_⟩
      intro m₁ h₁
      rw [hi] at h₁
      cases h₁
    · constructor
      · intro hf
        obtain ⟨hp, hl, -, -⟩ := hf m' hi
        have hle := hm.length
        rw [← hp, ← hl, hlen] at hle
        simp only at hle
        omega
      · rintro (hs | ⟨v, hv⟩ | hs)
        · cases hs
        · exact absurd hv (habs v)
        · exact absurd hs hsup

/-- In every map that insertions and removals can build, whatever allocations
failed on the way, a failing insertion leaves the map as it was exactly when
the insertion is covered (and then an owned tree does not fail at all). -/
theorem insert_atomic_iff (ops : List (Op K V)) (m : BTreeMap K V)
    (hr : run step BTreeMap.new ops = some m) (key : K) (value : V) (a : Allocs) :
    FailsCleanly m key value a ↔ Covered m key a :=
  failsCleanly_iff key value a (invariant step_good new_good hr)

end Order

def plenty : Allocs := ⟨true, fun _ => true, true⟩

def exhausted : Allocs := ⟨false, fun _ => false, false⟩

/-- Two keys in a leaf: there is room for a third. -/
theorem insert_third_atomic :
    ∃ m : BTreeMap Nat Unit, run step BTreeMap.new [.insert 1 () plenty, .insert 2 () plenty] = some m ∧
      (FailsCleanly m 3 () exhausted ↔ Covered m 3 exhausted) :=
  ⟨_, rfl, insert_atomic_iff [.insert 1 () plenty, .insert 2 () plenty] _ rfl 3 () exhausted⟩

/-- Eleven keys fill the root leaf. The twelfth finds no memory, and the map
counts twelve pairs from then on. -/
theorem insert_twelfth_not_atomic :
    ∃ m : BTreeMap Nat Unit,
      run step BTreeMap.new ((List.range 11).map fun k => Op.insert k () plenty) = some m ∧
      ¬ FailsCleanly m 11 () exhausted := by
  refine ⟨_, rfl, ?_⟩
  intro hf
  obtain ⟨-, hlen, -⟩ := hf _ rfl
  exact absurd hlen (by decide)

end Crabos.BTree
