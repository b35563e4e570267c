import Crabos.Btree.Map

/-!
# Appending a map (`alloc_collections/src/btree/map.rs`)

`append` takes both maps apart and pushes the merged pairs into a new tree, one
after the other at its right edge. Nodes at the right edge may have too few
pairs until the last pair is in, and then they steal from their left siblings.
The two maps are empty in the meantime, so that a failing allocation loses the
pairs that are not yet in the new tree.
-/
namespace Crabos.BTree

open Crabos.Weave Crabos.Run

variable {K V : Type}

def MIN_LEN : Nat := B - 1

section merge

variable [LinearOrder K]

/-- `MergeIter`: of two equal keys the pair on the right is taken. -/
def mergeIter : List (K × V) → List (K × V) → List (K × V)
  | [], right => right
  | left, [] => left
  | a :: left, b :: right =>
    match cmp a.1 b.1 with
    | .lt => a :: mergeIter left (b :: right)
    | .gt => b :: mergeIter (a :: left) right
    | .eq => b :: mergeIter left right
termination_by left right => left.length + right.length

end merge

/-- `Root::new_leaf`, and then `push_level` for each level. `ok n` is the outcome of allocation
`n` of a call of `append`, and `c` is the number of the next one. -/
def newTree (ok : Nat → Bool) (c : Nat) : (h : Nat) → Option (Node K V h)
  | 0 => if ok c then some ([] : List (K × V)) else none
  | h + 1 => (newTree ok c h).bind fun tree =>
    if ok (c + h + 1) then some ⟨[], [tree]⟩ else none

/-- What becomes of a pair at the right edge: it is in, or all nodes are full up to this one, or
there is no memory for the new tree to its right. -/
inductive PushResult (K V : Type) (h : Nat) where
  | pushed (n : Node K V h) (c : Nat)
  | full
  | failed

/-- The pair goes into an internal node, with a new tree to its right. -/
def pushTree {h : Nat} (ok : Nat → Bool) (c : Nat) (kv : K × V)
    (n : InternalNode K V (Node K V h)) : PushResult K V (h + 1) :=
  match newTree ok c h with
  | some tree => .pushed ⟨n.data ++ [kv], n.edges ++ [tree]⟩ (c + h + 1)
  | none => .failed

/-- The lowest node of the right edge that has room takes the pair. -/
def pushBack (ok : Nat → Bool) (c : Nat) (kv : K × V) :
    {h : Nat} → Node K V h → Option (PushResult K V h)
  | 0, n => some (
    if (Node.data n).length < CAPACITY then .pushed (Node.data n ++ [kv] : List (K × V)) c
    else .full)
  | _ + 1, n => (InternalNode.edges n).getLast?.bind fun e => (pushBack ok c kv e).map fun
    | .pushed e' c' =>
      .pushed (InternalNode.setEdge n ((InternalNode.edges n).length - 1) e') c'
    | .full => if (InternalNode.data n).length < CAPACITY then pushTree ok c kv n else .full
    | .failed => .failed

/-- The pairs that a node takes from its left sibling, through the pair between them. -/
def bulkStealLeft : {h : Nat} → Node K V h → K × V → Node K V h → Nat →
    Option (Node K V h × (K × V) × Node K V h)
  | 0, left, kv, right, count =>
    if count ≤ (Node.data left).length then
      (Node.data left)[(Node.data left).length - count]?.map fun kv' =>
        (((Node.data left).take ((Node.data left).length - count) : List (K × V)), kv',
          ((Node.data left).drop ((Node.data left).length - count + 1) ++ kv :: Node.data right :
            List (K × V)))
    else none
  | _ + 1, left, kv, right, count =>
    if count ≤ (InternalNode.data left).length then
      (InternalNode.data left)[(InternalNode.data left).length - count]?.map fun kv' =>
        (⟨(InternalNode.data left).take ((InternalNode.data left).length - count),
            (InternalNode.edges left).take ((InternalNode.data left).length - count + 1)⟩, kv',
          ⟨(InternalNode.data left).drop ((InternalNode.data left).length - count + 1) ++
              kv :: InternalNode.data right,
            (InternalNode.edges left).drop ((InternalNode.data left).length - count + 1) ++
              InternalNode.edges right⟩)
    else none

/-- From the root down each last child gets enough pairs. -/
def fixRightEdge : {h : Nat} → Node K V h → Option (Node K V h)
  | 0, n => some n
  | _ + 1, n => (InternalNode.edges n).getLast?.bind fun right =>
    if right.len < MIN_LEN then
      (InternalNode.edges n).dropLast.getLast?.bind fun left =>
      (InternalNode.data n).getLast?.bind fun kv =>
      (bulkStealLeft left kv right (MIN_LEN - right.len)).bind fun (left', kv', right') =>
        (fixRightEdge right').map fun right' =>
          ⟨(InternalNode.data n).dropLast ++ [kv'],
            (InternalNode.edges n).dropLast.dropLast ++ [left', right']⟩
    else (fixRightEdge right).map fun right' =>
      InternalNode.setEdge n ((InternalNode.edges n).length - 1) right'

namespace BTreeMap

/-- The loop of `from_sorted_iter` for one pair; where all nodes of the right edge are full the
tree gets a new root first. -/
def pushPair (ok : Nat → Bool) (m : BTreeMap K V) (c : Nat) (kv : K × V) :
    Option (Except AllocErr Nat × BTreeMap K V) :=
  match m.root with
  | .shared => none
  | .owned h n => (pushBack ok c kv n).map fun
    | .pushed n c => (.ok c, ⟨.owned h n, m.length + 1⟩)
    | .failed => (.error ⟨⟩, m)
    | .full =>
      if ok c then
        match pushTree ok (c + 1) kv ⟨[], [n]⟩ with
        | .pushed root c => (.ok c, ⟨.owned (h + 1) root, m.length + 1⟩)
        | _ => (.error ⟨⟩, ⟨.owned (h + 1) ⟨[], [n]⟩, m.length⟩)
      else (.error ⟨⟩, m)

def pushAll (ok : Nat → Bool) (m : BTreeMap K V) (c : Nat) :
    List (K × V) → Option (Except AllocErr Unit × BTreeMap K V)
  | [] => some (.ok (), m)
  | kv :: kvs => (pushPair ok m c kv).bind fun
    | (.ok c, m) => pushAll ok m c kvs
    | (.error e, m) => some (.error e, m)

/-- `append` calls it for a map that it has taken, whose root is shared: the first allocation is
for a root. -/
def fromSortedIter (ok : Nat → Bool) (m : BTreeMap K V) (iter : List (K × V)) :
    Option (Except AllocErr Unit × BTreeMap K V) :=
  match m.ensureRootIsOwned (ok 0) with
  | .error e => some (.error e, m)
  | .ok owned => pushAll ok owned (if m.root matches .shared then 1 else 0) iter

/-- The pairs of `into_iter()`, which trusts the length like `iter` and takes the same way. -/
def intoIter (m : BTreeMap K V) : Option (List (K × V)) := m.iter

/-- The result, and both maps afterwards. -/
def append [LinearOrder K] (ok : Nat → Bool) (m other : BTreeMap K V) :
    Option (Except AllocErr Unit × BTreeMap K V × BTreeMap K V) :=
  if other.length = 0 then some (.ok (), m, other)
  else if m.length = 0 then some (.ok (), other, m)
  else m.intoIter.bind fun left => other.intoIter.bind fun right =>
    (fromSortedIter ok new (mergeIter left right)).bind fun
    | (.error e, m) => some (.error e, m, new)
    | (.ok _, m) => (fixRightEdge m.asRef.2).map fun n => (.ok (), ⟨.owned _ n, m.length⟩, new)

end BTreeMap

/-! The pairs at the right edge. -/

/-- Each internal node has one edge more than pairs. -/
def Shaped : {h : Nat} → Node K V h → Prop
  | 0, _ => True
  | h + 1, n => (InternalNode.edges n).length = (InternalNode.data n).length + 1 ∧
    ∀ e ∈ InternalNode.edges n, Shaped (h := h) e

theorem newTree_spec {ok : Nat → Bool} {c h : Nat} {tree : Node K V h}
    (ht : newTree ok c h = some tree) : Shaped tree ∧ tree.pairs = [] := by
  induction h with
  | zero =>
    rw [newTree] at ht
    split at ht
    · cases ht
      exact ⟨trivial, rfl⟩
    · cases ht
  | succ h ih =>
    obtain ⟨sub, hsub, ht⟩ := Option.bind_eq_some_iff.mp ht
    split at ht
    · cases ht
      obtain ⟨hshaped, hpairs⟩ := ih hsub
      refine ⟨⟨rfl, ?_⟩, ?_⟩
      · intro e he
        rw [List.mem_singleton.mp he]
        exact hshaped
      · rw [pairs_internal, List.map_singleton, weave, hpairs]
    · cases ht

/-- The node a pair was pushed into: one pair more, at its end. -/
def Pushed {h : Nat} (kv : K × V) (n : Node K V h) : PushResult K V h → Prop
  | .pushed n' _ => Shaped n' ∧ n'.pairs = n.pairs ++ [kv]
  | .full => True
  | .failed => True

theorem pushTree_spec {h : Nat} (ok : Nat → Bool) (c : Nat) (kv : K × V)
    {n : InternalNode K V (Node K V h)} (hn : Shaped (h := h + 1) n) :
    Pushed (h := h + 1) kv n (pushTree ok c kv n) := by
  obtain ⟨hlen, hall⟩ := hn
  rw [pushTree]
  cases ht : newTree ok c h with
  | none => trivial
  | some tree =>
    obtain ⟨hshaped, hpairs⟩ := newTree_spec ht
    refine ⟨⟨?_, ?_⟩, ?_⟩
    · simp [hlen]
    · intro e he
      rcases List.mem_append.mp he with he | he
      · exact hall e he
      · rw [List.mem_singleton.mp he]
        exact hshaped
    · have hmap : (n.edges.map Node.pairs).length = n.data.length + 1 := by
        rw [List.length_map, hlen]
      rw [pairs_internal, pairs_internal, List.map_append, List.map_singleton, hpairs,
        weave_split _ kv [] hmap, weave]

/-- The last child with all that is before it. -/
theorem last_child {h : Nat} {n : InternalNode K V (Node K V h)} (hn : Shaped (h := h + 1) n) :
    ∃ (edges : List (Node K V h)) (e : Node K V h), n.edges.getLast? = some e ∧ Shaped e ∧
      Node.pairs (h := h + 1) n = before (edges.map Node.pairs) n.data ++ e.pairs ∧
      ∀ e', Shaped e' → Shaped (h := h + 1) (n.setEdge (n.edges.length - 1) e') ∧
        Node.pairs (h := h + 1) (n.setEdge (n.edges.length - 1) e') =
          before (edges.map Node.pairs) n.data ++ e'.pairs := by
  obtain ⟨hlen, hall⟩ := hn
  obtain ⟨edges, e, epost, he, h₁, h₂⟩ := edges_focus hlen (List.append_nil n.data).symm
  have hnil : epost = [] := List.eq_nil_of_length_eq_zero h₂
  subst hnil
  have hpairs : ∀ e' : Node K V h, Node.pairs (h := h + 1) ⟨n.data, edges ++ [e']⟩ =
      before (edges.map Node.pairs) n.data ++ e'.pairs := by
    intro e'
    rw [pairs_focus (List.append_nil n.data).symm rfl h₁ h₂, after_nil, List.append_nil]
  refine ⟨edges, e, by simp [he], hall e (by simp [he]), ?_, ?_⟩
  · rw [← hpairs e, ← he]
  intro e' he'
  have hset : n.setEdge (n.edges.length - 1) e' = ⟨n.data, edges ++ [e']⟩ := by
    rw [InternalNode.setEdge, he]
    simp
  rw [hset]
  refine ⟨⟨by simp [h₁], ?_⟩, hpairs e'⟩
  intro x hx
  rcases List.mem_append.mp hx with hx | hx
  · exact hall x (by simp [he, hx])
  · rw [List.mem_singleton.mp hx]
    exact he'

theorem pushBack_spec (ok : Nat → Bool) (c : Nat) (kv : K × V) {h : Nat} (n : Node K V h)
    (hn : Shaped n) : ∃ r, pushBack ok c kv n = some r ∧ Pushed kv n r := by
  induction h with
  | zero =>
    rw [pushBack]
    split
    · exact ⟨_, rfl, trivial, rfl⟩
    · exact ⟨_, rfl, trivial⟩
  | succ h ih =>
    obtain ⟨edges, e, hlast, he, hold, hset⟩ := last_child hn
    obtain ⟨r, hr, hspec⟩ := ih e he
    rw [pushBack, hlast, Option.bind_some, hr, Option.map_some]
    cases r with
    | pushed e' c' =>
      obtain ⟨hshaped, hpairs⟩ := hspec
      obtain ⟨hshaped', hpairs'⟩ := hset e' hshaped
      refine ⟨_, rfl, hshaped', ?_⟩
      rw [hpairs', hpairs, hold, List.append_assoc]
    | full =>
      simp only
      split
      · exact ⟨_, rfl, pushTree_spec ok c kv hn⟩
      · exact ⟨_, rfl, trivial⟩
    | failed => exact ⟨_, rfl, trivial⟩

/-- An owned tree, with a length that counts its pairs. -/
structure Built (m : BTreeMap K V) : Prop where
  owned : m.root ≠ .shared
  shaped : Shaped m.asRef.2
  length : m.length = m.pairs.length

theorem built_owned {h : Nat} {n : Node K V h} {length : Nat} (hn : Shaped n)
    (hl : length = n.pairs.length) : Built (⟨.owned h n, length⟩ : BTreeMap K V) :=
  ⟨by simp, hn, hl⟩

/-- A pair is pushed, or the allocation fails and the tree has the same pairs. -/
theorem pushPair_spec (ok : Nat → Bool) {m : BTreeMap K V} (hm : Built m) (c : Nat) (kv : K × V) :
    ∃ r m', m.pushPair ok c kv = some (r, m') ∧ Built m' ∧
      ((∃ c', r = .ok c' ∧ m'.pairs = m.pairs ++ [kv]) ∨ (r = .error ⟨⟩ ∧ m'.pairs = m.pairs)) := by
  obtain ⟨root, length⟩ := m
  obtain ⟨howned, hshaped, hlen⟩ := hm
  cases root with
  | shared => exact absurd rfl howned
  | owned h n =>
    have hn : Shaped n := hshaped
    have hl : length = n.pairs.length := hlen
    have hmore : ∀ {h' : Nat} {n' : Node K V h'}, Shaped n' → n'.pairs = n.pairs ++ [kv] →
        Built (⟨.owned h' n', length + 1⟩ : BTreeMap K V) := by
      intro h' n' hn' hp
      apply built_owned hn'
      rw [hp, hl, List.length_append, List.length_singleton]
    obtain ⟨r, hr, hspec⟩ := pushBack_spec ok c kv n hn
    rw [BTreeMap.pushPair]
    simp only
    rw [hr, Option.map_some]
    cases r with
    | pushed n' c' => exact ⟨_, _, rfl, hmore hspec.1 hspec.2, .inl ⟨c', rfl, hspec.2⟩⟩
    | failed => exact ⟨_, _, rfl, built_owned hn hl, .inr ⟨rfl, rfl⟩⟩
    | full =>
      -- the old root becomes the only child of a new one
      have hroot : Shaped (h := h + 1) (⟨[], [n]⟩ : InternalNode K V (Node K V h)) := by
        refine ⟨rfl, ?_⟩
        intro e he
        rw [List.mem_singleton.mp he]
        exact hn
      have hpairs : Node.pairs (h := h + 1) (⟨[], [n]⟩ : InternalNode K V (Node K V h)) = n.pairs := by
        rw [pairs_internal, List.map_singleton, weave]
      have hpush := pushTree_spec ok (c + 1) kv hroot
      have hstays : Built (⟨.owned (h + 1) ⟨[], [n]⟩, length⟩ : BTreeMap K V) := by
        apply built_owned hroot
        rw [hpairs, hl]
      simp only
      split
      · cases hp : pushTree ok (c + 1) kv (⟨[], [n]⟩ : InternalNode K V (Node K V h)) with
        | pushed root c' =>
          rw [hp] at hpush
          obtain ⟨hroot', hpairs'⟩ := hpush
          rw [hpairs] at hpairs'
          exact ⟨_, _, rfl, hmore hroot' hpairs', .inl ⟨c', rfl, hpairs'⟩⟩
        | full => exact ⟨_, _, rfl, hstays, .inr ⟨rfl, hpairs⟩⟩
        | failed => exact ⟨_, _, rfl, hstays, .inr ⟨rfl, hpairs⟩⟩
      · exact ⟨_, _, rfl, built_owned hn hl, .inr ⟨rfl, rfl⟩⟩

/-- The pairs before the one that found no memory are in the tree, and no others. -/
theorem pushAll_spec (ok : Nat → Bool) {m : BTreeMap K V} (hm : Built m) (c : Nat)
    (kvs : List (K × V)) :
    ∃ r m', m.pushAll ok c kvs = some (r, m') ∧ Built m' ∧
      ((r = .ok () ∧ m'.pairs = m.pairs ++ kvs) ∨
        (r = .error ⟨⟩ ∧ ∃ kv rest, m.pairs ++ kvs = m'.pairs ++ kv :: rest)) := by
  induction kvs generalizing m c with
  | nil => exact ⟨_, m, rfl, hm, .inl ⟨rfl, (List.append_nil _).symm⟩⟩
  | cons kv kvs ih =>
    obtain ⟨r, m₁, hr, hm₁, ⟨c', rfl, hpairs⟩ | ⟨rfl, hpairs⟩⟩ := pushPair_spec ok hm c kv
    · obtain ⟨r, m₂, hrest, hm₂, hend⟩ := ih hm₁ c'
      rw [hpairs, List.append_assoc, List.singleton_append] at hend
      refine ⟨r, m₂, ?_, hm₂, hend⟩
      rw [BTreeMap.pushAll, hr, Option.bind_some]
      exact hrest
    · refine ⟨.error ⟨⟩, m₁, ?_, hm₁, .inr ⟨rfl, kv, kvs, by rw [hpairs]⟩⟩
      rw [BTreeMap.pushAll, hr]
      rfl

theorem fromSortedIter_spec (ok : Nat → Bool) (iter : List (K × V)) (h0 : iter ≠ []) :
    ∃ r m', BTreeMap.fromSortedIter ok BTreeMap.new iter = some (r, m') ∧
      m'.length = m'.pairs.length ∧
      ((r = .ok () ∧ Built m' ∧ m'.pairs = iter) ∨
        (r = .error ⟨⟩ ∧ ∃ kv rest, iter = m'.pairs ++ kv :: rest)) := by
  rw [BTreeMap.fromSortedIter, BTreeMap.ensureRootIsOwned, BTreeMap.new]
  simp only
  split
  · rename_i e he
    split at he
    · cases he
    · obtain ⟨kv, rest, rfl⟩ := List.exists_cons_of_ne_nil h0
      exact ⟨_, _, rfl, rfl, .inr ⟨rfl, kv, rest, rfl⟩⟩
  · rename_i m he
    split at he
    · cases he
      have hbuilt : Built (⟨.owned 0 ([] : List (K × V)), 0⟩ : BTreeMap K V) :=
        built_owned trivial rfl
      obtain ⟨r, m', hr, hm', hend⟩ := pushAll_spec ok hbuilt 1 iter
      refine ⟨r, m', hr, hm'.length, ?_⟩
      rcases hend with ⟨rfl, hp⟩ | ⟨rfl, hp⟩
      · exact .inl ⟨rfl, hm', hp⟩
      · exact .inr ⟨rfl, hp⟩
    · cases he

section Order

variable [LinearOrder K]

/-! The merged pairs. -/

theorem mem_mergeIter {left right : List (K × V)} {kv : K × V} (h : kv ∈ mergeIter left right) :
    kv ∈ left ∨ kv ∈ right := by
  induction left, right using mergeIter.induct with
  | case1 right =>
    rw [mergeIter] at h
    exact .inr h
  | case2 left hne =>
    rw [mergeIter] at h
    · exact .inl h
    · exact hne
  | case3 a left b right hcmp ih =>
    rw [mergeIter, hcmp] at h
    rcases List.mem_cons.mp h with rfl | h
    · exact .inl List.mem_cons_self
    · exact (ih h).imp_left (List.mem_cons_of_mem a)
  | case4 a left b right hcmp ih =>
    rw [mergeIter, hcmp] at h
    rcases List.mem_cons.mp h with rfl | h
    · exact .inr List.mem_cons_self
    · exact (ih h).imp_right (List.mem_cons_of_mem b)
  | case5 a left b right hcmp ih =>
    rw [mergeIter, hcmp] at h
    rcases List.mem_cons.mp h with rfl | h
    · exact .inr List.mem_cons_self
    · exact (ih h).imp (List.mem_cons_of_mem a) (List.mem_cons_of_mem b)

theorem sorted_cons {a : K × V} {l : List (K × V)} :
    Sorted (a :: l) ↔ (∀ b ∈ l, a.1 < b.1) ∧ Sorted l := List.pairwise_cons

theorem mergeIter_sorted {left right : List (K × V)} (hl : Sorted left) (hr : Sorted right) :
    Sorted (mergeIter left right) := by
  induction left, right using mergeIter.induct with
  | case1 right =>
    rw [mergeIter]
    exact hr
  | case2 left hne =>
    rw [mergeIter]
    · exact hl
    · exact hne
  | case3 a left b right hcmp ih =>
    have hab : a.1 < b.1 := (cmp_eq_lt_iff _ _).mp hcmp
    obtain ⟨ha, hl⟩ := sorted_cons.mp hl
    have hb := (sorted_cons.mp hr).1
    rw [mergeIter, hcmp]
    refine sorted_cons.mpr ⟨?_, ih hl hr⟩
    intro x hx
    rcases mem_mergeIter hx with hx | hx
    · exact ha x hx
    · rcases List.mem_cons.mp hx with rfl | hx
      · exact hab
      · exact lt_trans hab (hb x hx)
  | case4 a left b right hcmp ih =>
    have hba : b.1 < a.1 := (cmp_eq_gt_iff _ _).mp hcmp
    obtain ⟨hb, hr⟩ := sorted_cons.mp hr
    have ha := (sorted_cons.mp hl).1
    rw [mergeIter, hcmp]
    refine sorted_cons.mpr ⟨?_, ih hl hr⟩
    intro x hx
    rcases mem_mergeIter hx with hx | hx
    · rcases List.mem_cons.mp hx with rfl | hx
      · exact hba
      · exact lt_trans hba (ha x hx)
    · exact hb x hx
  | case5 a left b right hcmp ih =>
    have hab : a.1 = b.1 := (cmp_eq_eq_iff _ _).mp hcmp
    obtain ⟨ha, hl⟩ := sorted_cons.mp hl
    obtain ⟨hb, hr⟩ := sorted_cons.mp hr
    rw [mergeIter, hcmp]
    refine sorted_cons.mpr ⟨?_, ih hl hr⟩
    intro x hx
    rcases mem_mergeIter hx with hx | hx
    · rw [← hab]
      exact ha x hx
    · exact hb x hx

theorem mergeIter_ne_nil {left right : List (K × V)} (h : right ≠ []) : mergeIter left right ≠ [] := by
  obtain ⟨b, right, rfl⟩ := List.exists_cons_of_ne_nil h
  cases left with
  | nil =>
    rw [mergeIter]
    exact h
  | cons a left =>
    rw [mergeIter]
    split
    · simp
    · simp
    · simp

/-! A failing call. -/

theorem intoIter_some {m : BTreeMap K V} (hm : Good m) {l : List (K × V)} (h : m.intoIter = some l) :
    l = m.pairs ∧ m.length = m.pairs.length := by
  obtain ⟨p, hp, hok, hr⟩ := firstLeafEdge_spec m.asRef.2 hm.sized
  have hrest : p.rest = m.pairs := hr
  have hlen := hm.length
  rw [BTreeMap.intoIter, BTreeMap.iter, hp, Option.bind_some, collect_spec _ p hok, hrest] at h
  split at h
  · rename_i hle
    have hexact := Nat.le_antisymm hle hlen
    rw [hexact, List.take_length] at h
    cases h
    exact ⟨rfl, hexact⟩
  · cases h

/-- The other map is empty, and the map has the pairs that were pushed. At least one is lost. -/
theorem append_error {ok : Nat → Bool} {m other m' other' : BTreeMap K V} {e : AllocErr}
    (hm : Good m) (hother : Good other)
    (h : m.append ok other = some (.error e, m', other')) :
    other' = .new ∧ m'.length = m'.pairs.length ∧
      ∃ kv rest, mergeIter m.pairs other.pairs = m'.pairs ++ kv :: rest := by
  rw [BTreeMap.append] at h
  split at h
  · cases h
  · rename_i hlen
    split at h
    · cases h
    · obtain ⟨left, hleft, h⟩ := Option.bind_eq_some_iff.mp h
      obtain ⟨right, hright, h⟩ := Option.bind_eq_some_iff.mp h
      obtain ⟨rfl, -⟩ := intoIter_some hm hleft
      obtain ⟨rfl, hexact⟩ := intoIter_some hother hright
      have hne : other.pairs ≠ [] := by
        intro hnil
        rw [hnil] at hexact
        exact hlen hexact
      obtain ⟨r, m₁, hr, hcount, ⟨rfl, -, -⟩ | ⟨rfl, hlost⟩⟩ :=
        fromSortedIter_spec ok (mergeIter m.pairs other.pairs) (mergeIter_ne_nil hne)
      · rw [hr, Option.bind_some] at h
        obtain ⟨n, -, h⟩ := Option.map_eq_some_iff.mp h
        cases h
      · rw [hr, Option.bind_some] at h
        cases h
        exact ⟨rfl, hcount, hlost⟩

/-- What `remove` relies on: an internal root has a pair, and every other node as many as half
of its capacity. -/
def Filled : {h : Nat} → Node K V h → Prop
  | 0, _ => True
  | h + 1, n => 0 < (InternalNode.data n).length ∧
    ∀ e ∈ InternalNode.edges n, MIN_LEN ≤ e.len ∧ Filled (h := h) e

/-- What the maps should be after a failing call: no key is lost, and both are sound. -/
structure Kept (m other m' other' : BTreeMap K V) : Prop where
  keys : ∀ kv ∈ m.pairs ++ other.pairs, ∃ value, (kv.1, value) ∈ m.pairs ++ other.pairs ∧
    (kv.1, value) ∈ m'.pairs ++ other'.pairs
  lengths : m'.length = m'.pairs.length ∧ other'.length = other'.pairs.length
  trees : Filled m'.asRef.2 ∧ Filled other'.asRef.2

/-- A key is lost by every call that fails. -/
theorem append_loses_key {ok : Nat → Bool} {m other m' other' : BTreeMap K V} {e : AllocErr}
    (hm : Good m) (hother : Good other)
    (h : m.append ok other = some (.error e, m', other')) : ¬ Kept m other m' other' := by
  obtain ⟨rfl, -, kv, rest, hmerged⟩ := append_error hm hother h
  have hsorted := mergeIter_sorted hm.sorted hother.sorted
  rw [hmerged] at hsorted
  have hbelow := (List.pairwise_append.mp hsorted).2.2
  have hmem : kv ∈ m.pairs ++ other.pairs := by
    apply List.mem_append.mpr
    apply mem_mergeIter
    rw [hmerged]
    simp
  intro hkept
  obtain ⟨value, -, hvalue⟩ := hkept.keys kv hmem
  rcases List.mem_append.mp hvalue with hvalue | hvalue
  · exact lt_irrefl _ (hbelow _ hvalue kv List.mem_cons_self)
  · cases hvalue

end Order

def keysBelow (n : Nat) : List (Nat × Unit) := (List.range n).map fun k => (k, ())

def elevenKeys : BTreeMap Nat Unit := ⟨.owned 0 (keysBelow 11), 11⟩

def lastKey : BTreeMap Nat Unit := ⟨.owned 0 ([(11, ())] : List (Nat × Unit)), 1⟩

theorem elevenKeys_good : Good elevenKeys :=
  good_owned (h := 0) (by decide : 11 ≤ CAPACITY) (by unfold Sorted; decide) (by decide) (by decide)

theorem lastKey_good : Good lastKey :=
  good_owned (h := 0) (by decide : 1 ≤ CAPACITY) (by unfold Sorted; decide) (by decide) (by decide)

/-- The third allocation fails: the tree has a new root by then, but not the leaf for the
twelfth key. -/
def thirdFails (n : Nat) : Bool := n ≠ 2

/-- The new root, which has one child and no pairs. -/
def rootOnly : BTreeMap Nat Unit := ⟨.owned 1 ⟨[], [(keysBelow 11 : List (Nat × Unit))]⟩, 11⟩

theorem append_third_fails :
    elevenKeys.append thirdFails lastKey = some (.error ⟨⟩, rootOnly, .new) := by
  have hmerge : mergeIter (keysBelow 11) [(11, ())] = keysBelow 12 := by decide +kernel
  have hiter : elevenKeys.intoIter = some (keysBelow 11) := rfl
  have hlast : lastKey.intoIter = some [(11, ())] := rfl
  rw [BTreeMap.append, if_neg (by decide), if_neg (by decide), hiter, hlast, Option.bind_some,
    Option.bind_some, hmerge]
  rfl

theorem append_loses_twelfth :
    elevenKeys.append thirdFails lastKey = some (.error ⟨⟩, rootOnly, .new) ∧
      ¬ Kept elevenKeys lastKey rootOnly .new :=
  ⟨append_third_fails, append_loses_key elevenKeys_good lastKey_good append_third_fails⟩

/-- The twelfth key is gone, and the root has no pairs, so that the seventh removal that follows
comes to a place which the code takes to be unreachable. -/
theorem twelfth_key_lost :
    ∃ m', elevenKeys.append thirdFails lastKey = some (.error ⟨⟩, m', .new) ∧
      (∀ value, (11, value) ∉ m'.pairs) ∧ ¬ Filled m'.asRef.2 ∧
      ¬ Kept elevenKeys lastKey m' .new ∧ run step m' ((List.range 7).map Op.remove) = none := by
  have habsent : ∀ value, (11, value) ∉ rootOnly.pairs := by
    intro value
    decide +revert
  refine ⟨rootOnly, append_third_fails, habsent, ?_, ?_, rfl⟩
  · intro hfilled
    exact absurd hfilled.1 (by decide)
  · intro hkept
    obtain ⟨value, -, hvalue⟩ := hkept.keys (11, ()) (by decide)
    rcases List.mem_append.mp hvalue with hvalue | hvalue
    · exact habsent value hvalue
    · cases hvalue

end Crabos.BTree
