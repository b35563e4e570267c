import Crabos.Btree.Range

/-!
# The B-tree map is an ordered finite map

The calls that the map offers, each with its reply, against a function from
keys to values. The one freedom that the function leaves to the tree is that
an insertion into an empty map may be refused when there is no memory for a root.
-/
namespace Crabos.BTree

open Crabos.Weave Crabos.Run Crabos.Deque

variable {K V : Type}

section Search

variable [LinearOrder K]

/-- `search_tree` for a shared reference, and the value if it is found. -/
def searchTree (key : K) : {h : Nat} → Node K V h → Option (Option V)
  | 0, n =>
    match searchLinear (Node.data n) key with
    | (i, true) => (Node.data n)[i]?.map fun kv => some kv.2
    | (_, false) => some none
  | _ + 1, n =>
    match searchLinear (InternalNode.data n) key with
    | (i, true) => (InternalNode.data n)[i]?.map fun kv => some kv.2
    | (i, false) => (InternalNode.edges n)[i]?.bind (searchTree key)

namespace BTreeMap

def get (m : BTreeMap K V) (key : K) : Option (Option V) := searchTree key m.asRef.2

def containsKey (m : BTreeMap K V) (key : K) : Option Bool := (m.get key).map Option.isSome

/-- The old map is dropped. -/
def clear (_ : BTreeMap K V) : BTreeMap K V := new

def len (m : BTreeMap K V) : Nat := m.length

def isEmpty (m : BTreeMap K V) : Bool := m.len = 0

end BTreeMap

end Search

inductive Call (K V : Type) where
  | insert (key : K) (value : V) (a : Allocs)
  | remove (key : K)
  | clear
  | get (key : K)
  | containsKey (key : K)
  | len
  | isEmpty
  | iter (sides : List Side)
  | range (start stop : Bound K) (sides : List Side)

inductive Reply (K V : Type) where
  | inserted (r : Except AllocErr (Option V))
  | removed (old : Option V)
  | cleared
  | got (value : Option V)
  | found (b : Bool)
  | length (n : Nat)
  | empty (b : Bool)
  | yielded (items : List (Option (K × V)))
  | panicked

section Calls

variable [LinearOrder K]

/-- A call on the tree; `none` is an access out of bounds. -/
def BTreeMap.call (m : BTreeMap K V) : Call K V → Option (Reply K V × BTreeMap K V)
  | .insert key value a => (m.insert key value a).map fun (r, m') => (.inserted r, m')
  | .remove key => (m.remove key).map fun (old, m') => (.removed old, m')
  | .clear => some (.cleared, m.clear)
  | .get key => (m.get key).map fun v => (.got v, m)
  | .containsKey key => (m.containsKey key).map fun b => (.found b, m)
  | .len => some (.length m.len, m)
  | .isEmpty => some (.empty m.isEmpty, m)
  | .iter sides => m.bothEnds.bind fun it =>
    (calls (Iter.call m.asRef.2) it sides).map fun items => (.yielded items, m)
  | .range start stop sides =>
    if crossed start stop then some (.panicked, m)
    else (m.range start stop).bind fun r =>
      (calls (Range.call m.asRef.2) r sides).map fun items => (.yielded items, m)

def BTreeMap.calls (m : BTreeMap K V) : List (Call K V) → Option (List (Reply K V) × BTreeMap K V)
  | [] => some ([], m)
  | c :: cs => (m.call c).bind fun (r, m') => (m'.calls cs).map fun (rs, m'') => (r :: rs, m'')

/-- An insertion that needs memory for a tree that is in use gets it. -/
def Fits (m : BTreeMap K V) : Call K V → Prop
  | .insert key _ a => Covered m key a
  | _ => True

end Calls

/-- The pairs are those of the function, in the order of the keys. -/
structure Lists [LinearOrder K] (e : K → Option V) (l : List (K × V)) : Prop where
  sorted : Sorted l
  mem : ∀ k v, (k, v) ∈ l ↔ e k = some v

def Allocs.Plenty (a : Allocs) : Prop :=
  a.newLeaf = true ∧ (∀ h, a.split h = true) ∧ a.pushLevel = true

/-- What a call answers and leaves behind when the map is a function. -/
inductive Answer [LinearOrder K] (e : K → Option V) : Call K V → Reply K V → (K → Option V) → Prop
  | insert (key : K) (value : V) (a : Allocs) :
    Answer e (.insert key value a) (.inserted (.ok (e key))) (Function.update e key (some value))
  | refused (key : K) (value : V) (a : Allocs) (hempty : ∀ k, e k = none) (hleaf : a.newLeaf = false) :
    Answer e (.insert key value a) (.inserted (.error ⟨⟩)) e
  | remove (key : K) : Answer e (.remove key) (.removed (e key)) (Function.update e key none)
  | clear : Answer e .clear .cleared fun _ => none
  | get (key : K) : Answer e (.get key) (.got (e key)) e
  | containsKey (key : K) : Answer e (.containsKey key) (.found (e key).isSome) e
  | len (l : List (K × V)) (hl : Lists e l) : Answer e .len (.length l.length) e
  | isEmpty (l : List (K × V)) (hl : Lists e l) : Answer e .isEmpty (.empty l.isEmpty) e
  | iter (sides : List Side) (l : List (K × V)) (hl : Lists e l) :
    Answer e (.iter sides) (.yielded (pulls l sides)) e
  | range (start stop : Bound K) (sides : List Side) (l : List (K × V)) (hl : Lists e l)
    (hc : crossed start stop = false) :
    Answer e (.range start stop sides)
      (.yielded (pulls (l.filter fun a => contains start stop a.1) sides)) e
  | panic (start stop : Bound K) (sides : List Side) (hc : crossed start stop = true) :
    Answer e (.range start stop sides) .panicked e

inductive Answers [LinearOrder K] : (K → Option V) → List (Call K V) → List (Reply K V) →
    (K → Option V) → Prop
  | nil (e : K → Option V) : Answers e [] [] e
  | cons {e e' e'' : K → Option V} {c : Call K V} {r : Reply K V} {cs : List (Call K V)}
    {rs : List (Reply K V)} (h : Answer e c r e') (hs : Answers e' cs rs e'') :
    Answers e (c :: cs) (r :: rs) e''

/-- A root without pairs has one child, which holds everything. -/
theorem popLevel_spec {h : Nat} {n : Node K V h} (hn : Sized n) (h0 : n.len = 0) (hh : 0 < h) :
    ∃ k child, BTreeMap.popLevel n = some (Root.owned k child) ∧ child.pairs = n.pairs := by
  cases h with
  | zero => cases hh
  | succ h =>
    have hdata : InternalNode.data n = [] ++ [] := List.eq_nil_of_length_eq_zero h0
    obtain ⟨epre, child, epost, he, h₁, h₂⟩ := edges_focus hn.2.1 hdata
    have hpre : epre = [] := List.eq_nil_of_length_eq_zero h₁
    have hpost : epost = [] := List.eq_nil_of_length_eq_zero h₂
    subst hpre hpost
    refine ⟨h, child, by simp [BTreeMap.popLevel, he], ?_⟩
    refine Eq.trans ?_ (pairs_focus hdata he rfl rfl).symm
    simp

section Order

variable [LinearOrder K] {e : K → Option V} {l : List (K × V)}

theorem lists_nil : Lists (fun _ => none : K → Option V) [] :=
  ⟨List.Pairwise.nil, by simp⟩

theorem Lists.absent {key : K} (hl : Lists e l) (h : ∀ v, (key, v) ∉ l) : e key = none := by
  cases he : e key with
  | none => rfl
  | some v => exact absurd ((hl.mem key v).mpr he) (h v)

/-- Setting the value of a key that is there. -/
theorem Lists.set {key : K} {old : V} {xs ys : List (K × V)} (value : V)
    (hl : Lists e (xs ++ (key, old) :: ys)) :
    Lists (Function.update e key (some value)) (xs ++ (key, value) :: ys) := by
  obtain ⟨h₁, h₂, h₃⟩ := List.pairwise_append.mp hl.sorted
  obtain ⟨h₄, h₅⟩ := List.pairwise_cons.mp h₂
  refine ⟨List.pairwise_append.mpr ⟨h₁, List.pairwise_cons.mpr ⟨h₄, h₅⟩, ?_⟩, ?_⟩
  · intro a ha b hb
    rcases List.mem_cons.mp hb with rfl | hb
    · exact h₃ a ha (key, old) (by simp)
    · exact h₃ a ha b (by simp [hb])
  · intro k v
    by_cases hk : k = key
    · subst hk
      have hx : (k, v) ∉ xs := fun h => absurd (h₃ _ h (k, old) (by simp)) (lt_irrefl _)
      have hy : (k, v) ∉ ys := fun h => absurd (h₄ _ h) (lt_irrefl _)
      simp [hx, hy, eq_comm]
    · have hm := hl.mem k v
      simp only [List.mem_append, List.mem_cons, Prod.mk.injEq, hk, false_and, false_or] at hm ⊢
      simp [hm, hk]

theorem Lists.place {key : K} {value : V} {l' : List (K × V)} (hl : Lists e l)
    (hp : Placed key value l l') : Lists (Function.update e key (some value)) l' := by
  refine ⟨placed_sorted hp hl.sorted, ?_⟩
  have habs : ∀ v, (key, v) ∉ l := fun v => placed_absent hp
  obtain ⟨xs, ys, rfl, rfl, hx, hy⟩ := hp
  intro k v
  by_cases hk : k = key
  · subst hk
    have hv := habs v
    simp only [List.mem_append, not_or] at hv
    simp [hv.1, hv.2, eq_comm]
  · have hm := hl.mem k v
    simp only [List.mem_append] at hm
    simp [hm, hk]

theorem Lists.erase {key : K} {old : V} {xs ys : List (K × V)}
    (hl : Lists e (xs ++ (key, old) :: ys)) : Lists (Function.update e key none) (xs ++ ys) := by
  obtain ⟨h₁, h₂, h₃⟩ := List.pairwise_append.mp hl.sorted
  obtain ⟨h₄, h₅⟩ := List.pairwise_cons.mp h₂
  refine ⟨hl.sorted.sublist ((List.Sublist.refl xs).append (List.sublist_cons_self _ _)), ?_⟩
  intro k v
  by_cases hk : k = key
  · subst hk
    have hx : (k, v) ∉ xs := fun h => absurd (h₃ _ h (k, old) (by simp)) (lt_irrefl _)
    have hy : (k, v) ∉ ys := fun h => absurd (h₄ _ h) (lt_irrefl _)
    simp [hx, hy]
  · have hm := hl.mem k v
    simp only [List.mem_append, List.mem_cons, Prod.mk.injEq, hk, false_and, false_or] at hm ⊢
    simp [hm, hk]

theorem Lists.remove_absent {key : K} (hl : Lists e l) (h : ∀ v, (key, v) ∉ l) :
    Lists (Function.update e key none) l := by
  rw [← hl.absent h, Function.update_eq_self]
  exact hl

/-- The search finds exactly what the leaves hold. -/
theorem searchTree_spec (key : K) {h : Nat} (n : Node K V h) (hn : Sized n) (hs : Sorted n.pairs) :
    (∃ v, searchTree key n = some (some v) ∧ (key, v) ∈ n.pairs) ∨
      searchTree key n = some none ∧ ∀ v, (key, v) ∉ n.pairs := by
  induction h with
  | zero =>
    rcases hsearch : searchLinear (Node.data n) key with ⟨i, b⟩
    cases b with
    | true =>
      obtain ⟨pre, v, post, hd, rfl, -⟩ := searchLinear_true hsearch
      have hget : (Node.data n)[pre.length]? = some (key, v) := by simp [hd]
      refine .inl ⟨v, by simp [searchTree, hsearch, hget], ?_⟩
      change (key, v) ∈ Node.data n
      simp [hd]
    | false =>
      obtain ⟨pre, post, hd, rfl, hpre, hpost⟩ := searchLinear_false (show Sorted (Node.data n) from hs) hsearch
      refine .inr ⟨by simp [searchTree, hsearch], fun v hx => ?_⟩
      rw [show n.pairs = pre ++ [] ++ post by rw [List.append_nil]; exact hd] at hx
      exact not_mem_of_sides hpre (by simp) hpost v hx
  | succ h ih =>
    have hdata : (InternalNode.data n).Sublist n.pairs := sublist_weave (by simpa using hn.2.1)
    rcases hsearch : searchLinear (InternalNode.data n) key with ⟨i, b⟩
    cases b with
    | true =>
      obtain ⟨pre, v, post, hd, rfl, -⟩ := searchLinear_true hsearch
      have hget : (InternalNode.data n)[pre.length]? = some (key, v) := by simp [hd]
      exact .inl ⟨v, by simp [searchTree, hsearch, hget], hdata.subset (by simp [hd])⟩
    | false =>
      obtain ⟨pre, post, hd, rfl, hpre, hpost⟩ := searchLinear_false (hs.sublist hdata) hsearch
      obtain ⟨epre, e, epost, he, h₁, h₂⟩ := edges_focus hn.2.1 hd
      have hpairs : n.pairs = before (epre.map Node.pairs) pre ++ e.pairs ++
        after post (epost.map Node.pairs) := pairs_focus hd he h₁ h₂
      have hside := hpairs ▸ hs
      obtain ⟨hleft, hright⟩ := sides_of_search hside hpre hpost
      have hget : (InternalNode.edges n)[pre.length]? = some e := by simp [he, ← h₁]
      have hdown : searchTree key n = searchTree key e := by simp [searchTree, hsearch, hget]
      rw [hdown, hpairs]
      rcases ih e (hn.2.2 e (by simp [he])).1
        (List.pairwise_append.mp (List.pairwise_append.mp hside).1).2.1 with ⟨v, hv, hm⟩ | ⟨hnone, hm⟩
      · exact .inl ⟨v, hv, by simp [hm]⟩
      · exact .inr ⟨hnone, not_mem_of_sides hleft hm hright⟩

/-- What the function says is what the tree finds. -/
theorem get_spec {m : BTreeMap K V} (hm : Good m) (hl : Lists e m.pairs) (key : K) :
    m.get key = some (e key) := by
  rcases searchTree_spec key m.asRef.2 hm.sized hm.sorted with ⟨v, hv, hmem⟩ | ⟨hnone, hmem⟩
  · rw [(hl.mem key v).mp hmem]
    exact hv
  · rw [hl.absent hmem]
    exact hnone

/-- The length counts exactly the pairs, and these are those of the function. -/
structure Holds (m : BTreeMap K V) (e : K → Option V) : Prop where
  good : Good m
  lists : Lists e m.pairs
  length : m.length = m.pairs.length

theorem new_holds : Holds (BTreeMap.new : BTreeMap K V) fun _ => none :=
  ⟨new_good, lists_nil, rfl⟩

theorem supplied_of_plenty {a : Allocs} (key : K) (h : a.Plenty) {k : Nat} (n : Node K V k) :
    Supplied key a n :=
  ⟨fun j _ => h.2.1 j, fun _ => h.2.2⟩

/-- An insertion into a tree in use, with or without the memory it needs: what
is stored then is part of what it is to store. -/
theorem insert_owned_lists {h : Nat} {n : Node K V h} {length : Nat} (key : K) (value : V) (a : Allocs)
    (hm : Good (⟨.owned h n, length⟩ : BTreeMap K V)) (hl : Lists e n.pairs) :
    ∃ r m' l, BTreeMap.insert ⟨.owned h n, length⟩ key value a = some (r, m') ∧
      Lists (Function.update e key (some value)) l ∧ m'.pairs.Sublist l ∧
      (r = .error ⟨⟩ ∨ r = .ok (e key) ∧ m'.pairs = l ∧ m'.length + n.pairs.length = length + l.length) := by
  obtain ⟨out, hn, hspec⟩ := insertNode_spec a.split key value n hm.sized hm.sorted
  rw [BTreeMap.insert, BTreeMap.ensureRootIsOwned]
  simp only [hn, Option.map_some, Option.some.injEq]
  cases out with
  | occupied old n' =>
    obtain ⟨-, -, xs, ys, hx, hy⟩ := hspec
    have hold : e key = some old := (hl.mem key old).mp (by simp [hx])
    rw [hx] at hl ⊢
    refine ⟨_, _, n'.pairs, rfl, ?_, List.Sublist.refl _, .inr ⟨by rw [hold], rfl, ?_⟩⟩
    · rw [hy]
      exact hl.set value
    · simp [hy]
  | fit n' =>
    obtain ⟨-, -, hp, -⟩ := hspec
    have hnew : e key = none := hl.absent fun v => placed_absent hp
    refine ⟨_, _, n'.pairs, rfl, hl.place hp, List.Sublist.refl _, .inr ⟨by rw [hnew], rfl, ?_⟩⟩
    simp only [placed_length hp]
    omega
  | split left kv right =>
    obtain ⟨-, -, hp, -⟩ := hspec
    have hnew : e key = none := hl.absent fun v => placed_absent hp
    have hlen := placed_length hp
    cases hpush : a.pushLevel with
    | true =>
      refine ⟨_, _, _, rfl, hl.place hp, List.Sublist.refl _, .inr ⟨by rw [hnew], rfl, ?_⟩⟩
      simp only [hlen]
      omega
    | false => exact ⟨_, _, _, rfl, hl.place hp, List.sublist_append_left _ _, .inl rfl⟩
  | failed n' =>
    obtain ⟨-, -, ⟨l, hp, hsub⟩, -⟩ := hspec
    exact ⟨_, _, l, rfl, hl.place hp, hsub, .inl rfl⟩

/-- The first insertion makes a leaf, or leaves the map as it is. -/
theorem insert_shared_cases (key : K) (value : V) (a : Allocs) (length : Nat) :
    (a.newLeaf = true ∧ BTreeMap.insert ⟨.shared, length⟩ key value a =
      some (.ok none, ⟨.owned 0 ([(key, value)] : List (K × V)), length + 1⟩)) ∨
    a.newLeaf = false ∧ BTreeMap.insert ⟨.shared, length⟩ key value a =
      some (.error ⟨⟩, (⟨.shared, length⟩ : BTreeMap K V)) := by
  cases hleaf : a.newLeaf with
  | true =>
    simp [BTreeMap.insert, BTreeMap.ensureRootIsOwned, hleaf, insertNode, searchLinear, leafInsert,
      CAPACITY, B]
  | false => simp [BTreeMap.insert, BTreeMap.ensureRootIsOwned, hleaf]

theorem placed_singleton (key : K) (value : V) : Placed key value [] [(key, value)] :=
  ⟨[], [], rfl, rfl, by simp, by simp⟩

/-- An insertion with the memory it needs, or for a key that is there. -/
theorem insert_answer {m : BTreeMap K V} (key : K) (value : V) (a : Allocs) (hm : Holds m e)
    (hc : Covered m key a) :
    ∃ r m' e', m.call (.insert key value a) = some (r, m') ∧ Answer e (.insert key value a) r e' ∧
      Holds m' e' := by
  obtain ⟨root, length⟩ := m
  obtain ⟨r, m', hi, hg⟩ := insert_good key value a hm.good
  have hcall : BTreeMap.call ⟨root, length⟩ (.insert key value a) = some (.inserted r, m') := by
    simp [BTreeMap.call, hi]
  have hlen := hm.length
  cases root with
  | shared =>
    have hl : Lists e [] := hm.lists
    have hnew : e key = none := hl.absent (by simp)
    rcases insert_shared_cases key value a length with ⟨-, hcase⟩ | ⟨hleaf, hcase⟩
    · rw [hcase] at hi
      cases hi
      exact ⟨_, _, _, hcall, hnew ▸ .insert key value a, hg, hl.place (placed_singleton key value),
        congrArg (· + 1) hlen⟩
    · rw [hcase] at hi
      cases hi
      exact ⟨_, _, _, hcall, .refused key value a (fun k => hl.absent (by simp)) hleaf, hm⟩
  | owned h n =>
    obtain ⟨r', m'', l, hi', hl, -, hout⟩ := insert_owned_lists key value a hm.good hm.lists
    rw [hi] at hi'
    cases hi'
    rcases hout with rfl | ⟨rfl, hp, hcount⟩
    · obtain ⟨r, m'', hi', -, ⟨⟨old, rfl⟩, -⟩ | ⟨-, habs, hsup, -⟩⟩ := insert_owned key value a hm.good
      · rw [hi] at hi'
        cases hi'
      · rcases hc with hc | ⟨v, hv⟩ | hc
        · cases hc
        · exact absurd hv (habs v)
        · exact absurd hc hsup
    · rw [← hp] at hl hcount
      rw [pairs_owned] at hlen
      exact ⟨_, m', _, hcall, .insert key value a, hg, hl, by simp only at hlen; omega⟩

/-- A removal returns what the function has at the key, and takes that away. -/
theorem remove_lists {m : BTreeMap K V} (key : K) (hm : Good m) (hl : Lists e m.pairs) :
    ∃ m', m.remove key = some (e key, m') ∧ Lists (Function.update e key none) m'.pairs ∧
      m'.pairs.length + m.length = m'.length + m.pairs.length := by
  obtain ⟨root, length⟩ := m
  cases root with
  | shared =>
    have habs : ∀ v, (key, v) ∉ ([] : List (K × V)) := by simp
    have hnew : e key = none := hl.absent habs
    exact ⟨_, by simp [BTreeMap.remove, hnew], hl.remove_absent habs, Nat.add_comm _ _⟩
  | owned h n =>
    obtain ⟨out, hn, hspec⟩ := removeNode_spec key n hm.sized hm.sorted hm.root
    cases out with
    | none =>
      have hnew : e key = none := hl.absent hspec
      exact ⟨_, by simp [BTreeMap.remove, hn, hnew], hl.remove_absent hspec, Nat.add_comm _ _⟩
    | some out =>
      obtain ⟨old, n', status⟩ := out
      obtain ⟨hsz, hsh, hold, xs, ys, hx, hy⟩ := hspec
      obtain ⟨k, v⟩ := old
      simp only at hold
      subst hold
      have hlen := hm.length
      rw [pairs_owned, hx] at hl hlen ⊢
      have hold : e k = some v := (hl.mem k v).mp (by simp)
      obtain ⟨root, hroot, hpairs⟩ : ∃ root,
          (if status = .popLevel then BTreeMap.popLevel n' else some (.owned h n')) = some root ∧
          (⟨root, length - 1⟩ : BTreeMap K V).pairs = xs ++ ys := by
        by_cases hpop : status = .popLevel
        · rcases hsh with ⟨rfl, -⟩ | ⟨rfl, -, -⟩ | ⟨-, h0, -, hh⟩
          · cases hpop
          · cases hpop
          · obtain ⟨k, child, hc, hp⟩ := popLevel_spec hsz h0 hh
            exact ⟨_, by rw [if_pos hpop, hc], by rw [pairs_owned, hp, hy]⟩
        · exact ⟨.owned h n', by rw [if_neg hpop], hy⟩
      refine ⟨⟨root, length - 1⟩, ?_, ?_, ?_⟩
      · simp only [BTreeMap.remove, hn, Option.bind_some, hroot, Option.map_some, hold]
      · rw [hpairs]
        exact hl.erase
      · rw [hpairs]
        simp only [List.length_append, List.length_cons] at hlen ⊢
        omega

theorem remove_answer {m : BTreeMap K V} (key : K) (hm : Holds m e) :
    ∃ m', m.call (.remove key) = some (.removed (e key), m') ∧
      Holds m' (Function.update e key none) := by
  obtain ⟨m', hr, hl, hlen⟩ := remove_lists key hm.good hm.lists
  obtain ⟨r, m'', hr', hg⟩ := remove_good key hm.good
  rw [hr] at hr'
  cases hr'
  have := hm.length
  exact ⟨m', by simp [BTreeMap.call, hr], hg, hl, by omega⟩

theorem range_answer {m : BTreeMap K V} (hm : Good m) (start stop : Bound K) (sides : List Side) :
    m.call (.range start stop sides) = some (if crossed start stop then .panicked
      else .yielded (pulls (m.pairs.filter fun a => contains start stop a.1) sides), m) := by
  cases hc : crossed start stop with
  | true => simp [BTreeMap.call, hc]
  | false =>
    obtain ⟨r, hr, hs⟩ := range_spec hm hc
    have hcalls := calls_eq_pulls (fun _ _ side h => h.call hm.sized side) hs sides
    simp [BTreeMap.call, hc, hr, hcalls]

/-- Every call is answered, and the map goes on as the function does. -/
theorem call_answer {m : BTreeMap K V} (c : Call K V) (hm : Holds m e) (hf : Fits m c) :
    ∃ r m' e', m.call c = some (r, m') ∧ Answer e c r e' ∧ Holds m' e' := by
  have hl := hm.lists
  cases c with
  | insert key value a => exact insert_answer key value a hm hf
  | remove key =>
    obtain ⟨m', hcall, hm'⟩ := remove_answer key hm
    exact ⟨_, m', _, hcall, .remove key, hm'⟩
  | clear => exact ⟨_, _, _, rfl, .clear, new_holds⟩
  | get key => exact ⟨_, m, e, by simp [BTreeMap.call, get_spec hm.good hl], .get key, hm⟩
  | containsKey key =>
    exact ⟨_, m, e, by simp [BTreeMap.call, BTreeMap.containsKey, get_spec hm.good hl], .containsKey key, hm⟩
  | len =>
    have hlen : m.len = m.pairs.length := hm.length
    exact ⟨_, m, e, by rw [BTreeMap.call, hlen], .len m.pairs hl, hm⟩
  | isEmpty =>
    have hempty : m.isEmpty = m.pairs.isEmpty := by
      cases hp : m.pairs <;> simp [BTreeMap.isEmpty, BTreeMap.len, hm.length, hp]
    exact ⟨_, m, e, by rw [BTreeMap.call, hempty], .isEmpty m.pairs hl, hm⟩
  | iter sides =>
    obtain ⟨r, hends, hs⟩ := bothEnds_spec hm.good
    have hcalls : calls (Iter.call m.asRef.2) ⟨r, m.length⟩ sides = some (pulls m.pairs sides) := by
      refine calls_eq_pulls (R := fun it l => ∃ r, it = ⟨r, l.length⟩ ∧ Spans m.asRef.2 r l) ?_
        ⟨r, by rw [hm.length], hs⟩ sides
      rintro it l side ⟨r, rfl, hs⟩
      obtain ⟨r', hcall, hs'⟩ := hs.iterCall hm.good.sized side
      exact ⟨_, hcall, r', rfl, hs'⟩
    exact ⟨_, m, e, by simp [BTreeMap.call, hends, hcalls], .iter sides m.pairs hl, hm⟩
  | range start stop sides =>
    cases hc : crossed start stop with
    | true => exact ⟨_, m, e, by simp [BTreeMap.call, hc], .panic start stop sides hc, hm⟩
    | false => exact ⟨_, m, e, by rw [range_answer hm.good, hc]; rfl, .range start stop sides m.pairs hl hc, hm⟩

/-- A row of calls, each answered by the function that the ones before have left. -/
theorem calls_answers {m : BTreeMap K V} (cs : List (Call K V)) (hm : Holds m e)
    (hf : Along (fun m c => (BTreeMap.call m c).map Prod.snd) Fits m cs) :
    ∃ rs m' e', m.calls cs = some (rs, m') ∧ Answers e cs rs e' ∧ Holds m' e' := by
  induction cs generalizing m e with
  | nil => exact ⟨[], m, e, rfl, .nil e, hm⟩
  | cons c cs ih =>
    obtain ⟨r, m₁, e₁, hcall, ha, hm₁⟩ := call_answer c hm hf.1
    obtain ⟨rs, m₂, e₂, hcalls, has, hm₂⟩ := ih hm₁ (along_cons hf (by simp [hcall]))
    exact ⟨r :: rs, m₂, e₂, by simp [BTreeMap.calls, hcall, hcalls], .cons ha has, hm₂⟩

/-- On a new map every row of calls is answered as an ordered finite map would
answer it, as long as an insertion into a tree in use gets the memory it needs. -/
theorem calls_refine_ordered_map (cs : List (Call K V))
    (hf : Along (fun m c => (BTreeMap.call m c).map Prod.snd) Fits BTreeMap.new cs) :
    ∃ rs m e, (BTreeMap.new : BTreeMap K V).calls cs = some (rs, m) ∧
      Answers (fun _ => none) cs rs e ∧ Lists e m.pairs := by
  obtain ⟨rs, m, e, hcalls, ha, hm⟩ := calls_answers cs new_holds hf
  exact ⟨rs, m, e, hcalls, ha, hm.lists⟩

theorem fits_of_plenty (m : BTreeMap K V) {c : Call K V}
    (h : ∀ key value a, c = .insert key value a → a.Plenty) : Fits m c := by
  cases c with
  | insert key value a => exact .inr (.inr (supplied_of_plenty key (h key value a rfl) _))
  | _ => trivial

/-- What an operation is to leave behind, whether it succeeds or not. -/
def attempt (e : K → Option V) : Op K V → K → Option V
  | .insert key value _ => Function.update e key (some value)
  | .remove key => Function.update e key none

def Within (e f : K → Option V) : Prop := ∀ k v, e k = some v → f k = some v

theorem within_update {e f : K → Option V} (h : Within e f) (key : K) (value : Option V) :
    Within (Function.update e key value) (Function.update f key value) := by
  intro k v
  by_cases hk : k = key
  · simp [hk]
  · simpa [hk] using h k v

/-- A part of the list belongs to a part of the function. -/
theorem Lists.part {l' : List (K × V)} (hl : Lists e l) (hsub : l'.Sublist l) :
    ∃ e', Lists e' l' ∧ Within e' e := by
  classical
  have hmem : ∀ k v, (k, v) ∈ l' → e k = some v := fun k v h => (hl.mem k v).mp (hsub.subset h)
  refine ⟨fun k => if ∃ v, (k, v) ∈ l' then e k else none, ⟨hl.sorted.sublist hsub, ?_⟩, ?_⟩
  · intro k v
    by_cases hk : ∃ v, (k, v) ∈ l'
    · obtain ⟨w, hw⟩ := hk
      simp only [show ∃ v, (k, v) ∈ l' from ⟨w, hw⟩, if_true, hmem k w hw, Option.some.injEq]
      constructor
      · intro hv
        simpa [hmem k w hw] using hmem k v hv
      · rintro rfl
        exact hw
    · simp only [hk, if_false, reduceCtorEq, iff_false]
      exact fun hv => hk ⟨v, hv⟩
  · intro k v hv
    by_cases hk : ∃ v, (k, v) ∈ l'
    · simpa [hk] using hv
    · simp [hk] at hv

/-- One insertion or removal leaves a part of what it is to leave. -/
theorem step_part {m m' : BTreeMap K V} {f : K → Option V} {op : Op K V} (hm : Good m)
    (hl : Lists e m.pairs) (he : Within e f) (hs : step m op = some m') :
    ∃ e', Lists e' m'.pairs ∧ Within e' (attempt f op) := by
  cases op with
  | insert key value a =>
    obtain ⟨root, length⟩ := m
    have hw := within_update he key (some value)
    cases root with
    | shared =>
      have hl₀ : Lists e [] := hl
      have hnew : e key = none := hl₀.absent (by simp)
      rcases insert_shared_cases key value a length with ⟨-, hcase⟩ | ⟨-, hcase⟩
      · rw [step, hcase] at hs
        cases hs
        exact ⟨_, hl₀.place (placed_singleton key value), hw⟩
      · rw [step, hcase] at hs
        cases hs
        refine ⟨e, hl, fun k v hk => ?_⟩
        have hne : k ≠ key := by
          rintro rfl
          simp [hnew] at hk
        simpa [attempt, hne] using he k v hk
    | owned h n =>
      obtain ⟨r, m'', l, hi, hl', hsub, -⟩ := insert_owned_lists key value a hm hl
      rw [step, hi] at hs
      cases hs
      obtain ⟨e', hle, hwe⟩ := hl'.part hsub
      exact ⟨e', hle, fun k v hk => hw k v (hwe k v hk)⟩
  | remove key =>
    obtain ⟨m'', hr, hl', -⟩ := remove_lists key hm hl
    rw [step, hr] at hs
    cases hs
    exact ⟨_, hl', within_update he key none⟩

theorem run_part {m m' : BTreeMap K V} {f : K → Option V} {ops : List (Op K V)} (hm : Good m)
    (hl : Lists e m.pairs) (he : Within e f) (hr : run step m ops = some m') :
    ∃ e', Lists e' m'.pairs ∧ Within e' (ops.foldl attempt f) := by
  induction ops generalizing m e f with
  | nil =>
    cases hr
    exact ⟨e, hl, he⟩
  | cons op ops ih =>
    rw [run_cons] at hr
    obtain ⟨m₁, hs, hr⟩ := Option.bind_eq_some_iff.mp hr
    obtain ⟨e₁, hl₁, he₁⟩ := step_part hm hl he hs
    exact ih (step_good m op m₁ hm hs) hl₁ he₁ hr

/-- Whatever allocations failed on the way, the searches and ranges of the map
agree on what it stores, and all of that was put there by the last insertion
of its key. -/
theorem reads_agree_after_failures (ops : List (Op K V)) (m : BTreeMap K V)
    (hr : run step BTreeMap.new ops = some m) :
    ∃ e, Lists e m.pairs ∧ Within e (ops.foldl attempt fun _ => none) ∧
      (∀ key, m.get key = some (e key)) ∧ ∀ start stop sides,
        m.call (.range start stop sides) = some (if crossed start stop then .panicked
          else .yielded (pulls (m.pairs.filter fun a => contains start stop a.1) sides), m) := by
  have hm : Good m := invariant step_good new_good hr
  obtain ⟨e, hl, he⟩ := run_part new_good lists_nil (fun k v h => h) hr
  exact ⟨e, hl, he, get_spec hm hl, range_answer hm⟩

end Order

/-- Two pairs, asked for from both ends. -/
def twoPairs : List (Call Nat Nat) :=
  [.insert 5 50 plenty, .insert 3 30 plenty, .range (.included 3) .unbounded [.back, .front, .back],
    .remove 3, .get 3, .iter [.front, .back]]

/-- With memory for every insertion a row of calls fits. -/
theorem plenty_fits {cs : List (Call Nat Nat)} (h : ∀ key value a, .insert key value a ∈ cs → a = plenty) :
    Along (fun m c => (BTreeMap.call m c).map Prod.snd) Fits (BTreeMap.new : BTreeMap Nat Nat) cs :=
  along_of_forall _ _ fun m c hc => fits_of_plenty m (by
    rintro key value a rfl
    rw [h key value a hc]
    exact ⟨rfl, fun _ => rfl, rfl⟩)

theorem twoPairs_fit :
    Along (fun m c => (BTreeMap.call m c).map Prod.snd) Fits (BTreeMap.new : BTreeMap Nat Nat) twoPairs :=
  plenty_fits (by grind [twoPairs])

theorem calls_refine_ordered_map_two_pairs :
    ∃ rs m e, (BTreeMap.new : BTreeMap Nat Nat).calls twoPairs = some (rs, m) ∧
      Answers (fun _ => none) twoPairs rs e ∧ Lists e m.pairs :=
  calls_refine_ordered_map twoPairs twoPairs_fit

/-- Eleven pairs fill the root. The twelfth insertion has no memory for the split, and its
pair is lost. -/
def twelfthFails : List (Op Nat Nat) :=
  (List.range 11).map (fun n => .insert n (10 * n) plenty) ++ [.insert 11 110 exhausted]

theorem reads_agree_after_failures_twelfth :
    ∃ m : BTreeMap Nat Nat, run step BTreeMap.new twelfthFails = some m ∧
      m.length = 12 ∧ m.pairs.length = 11 ∧
      ∃ e, Lists e m.pairs ∧ Within e (twelfthFails.foldl attempt fun _ => none) ∧
        (∀ key, m.get key = some (e key)) ∧ ∀ start stop sides,
          m.call (.range start stop sides) = some (if crossed start stop then .panicked
            else .yielded (pulls (m.pairs.filter fun a => contains start stop a.1) sides), m) := by
  have h : (run step (BTreeMap.new : BTreeMap Nat Nat) twelfthFails).map (fun m => (m.length, m.pairs.length)) =
      some (12, 11) := by
    decide +kernel
  obtain ⟨m, hr, hlengths⟩ := Option.map_eq_some_iff.mp h
  obtain ⟨hlen, hpairs⟩ := Prod.mk.inj hlengths
  exact ⟨m, hr, hlen, hpairs, reads_agree_after_failures twelfthFails m hr⟩

end Crabos.BTree
