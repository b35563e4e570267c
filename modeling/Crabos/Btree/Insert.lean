import Crabos.Btree.Node

/-!
# Insertion into a subtree

The keys of a subtree are strictly increasing, its nodes hold at most
`CAPACITY` pairs, and nodes below the root hold at least as many as a split
leaves on the right. An insertion keeps that, whatever the allocator answers.
-/
namespace Crabos.BTree

open Crabos.Weave

variable {K V : Type}

/-- The fewest pairs in a node below the root. -/
def SMALLEST : Nat := CAPACITY - B - 1

def Sized : {h : Nat} → Node K V h → Prop
  | 0, n => (Node.data n).length ≤ CAPACITY
  | h + 1, n => (InternalNode.data n).length ≤ CAPACITY ∧
    (InternalNode.edges n).length = (InternalNode.data n).length + 1 ∧
    ∀ e ∈ InternalNode.edges n, Sized (h := h) e ∧ SMALLEST ≤ e.len

theorem pairs_internal {h : Nat} (n : InternalNode K V (Node K V h)) :
    Node.pairs (h := h + 1) n = weave (n.edges.map Node.pairs) n.data := rfl

/-- The edges on both sides of the one that belongs between `pre` and `post`. -/
theorem edges_focus {N : Type} {n : InternalNode K V N} (hl : n.edges.length = n.data.length + 1)
    {pre post : List (K × V)} (hd : n.data = pre ++ post) :
    ∃ epre e epost, n.edges = epre ++ e :: epost ∧ epre.length = pre.length ∧
      epost.length = post.length := by
  obtain ⟨epre, e, epost, he, hp⟩ := exists_split (l := n.edges) (i := pre.length) (by
    rw [hl, hd, List.length_append]
    omega)
  refine ⟨epre, e, epost, he, hp, ?_⟩
  have hlen := hl
  rw [he, hd] at hlen
  simp only [List.length_append, List.length_cons] at hlen
  omega

/-- The pairs of a node, seen from one of its edges. -/
theorem pairs_focus {h : Nat} {data pre post : List (K × V)} {edges epre epost : List (Node K V h)}
    {e : Node K V h} (hd : data = pre ++ post) (he : edges = epre ++ e :: epost)
    (h₁ : epre.length = pre.length) (h₂ : epost.length = post.length) :
    Node.pairs (h := h + 1) ⟨data, edges⟩ =
      before (epre.map Node.pairs) pre ++ e.pairs ++ after post (epost.map Node.pairs) := by
  rw [pairs_internal, hd, he, List.map_append, List.map_cons,
    weave_focus _ (by simpa using h₁) (by simpa using h₂)]

/-- The pairs of a node, seen from two neighbouring edges. -/
theorem pairs_siblings {h : Nat} {pre post : List (K × V)} {epre epost : List (Node K V h)}
    (l r : Node K V h) (kv : K × V) (h₁ : epre.length = pre.length)
    (h₂ : epost.length = post.length) :
    Node.pairs (h := h + 1) ⟨pre ++ kv :: post, epre ++ l :: r :: epost⟩ =
      before (epre.map Node.pairs) pre ++ (l.pairs ++ kv :: r.pairs) ++
        after post (epost.map Node.pairs) := by
  rw [pairs_focus rfl rfl h₁ (by simpa using h₂), List.map_cons, after_cons]
  simp

section Order

variable [LinearOrder K]

def Sorted (l : List (K × V)) : Prop := l.Pairwise fun a b => a.1 < b.1

theorem searchLinear_true {data : List (K × V)} {key : K} {i : Nat}
    (h : searchLinear data key = (i, true)) :
    ∃ pre v post, data = pre ++ (key, v) :: post ∧ pre.length = i ∧ ∀ a ∈ pre, a.1 < key := by
  induction data generalizing i with
  | nil => cases h
  | cons kv data ih =>
    rw [searchLinear] at h
    split at h
    · rename_i hc
      rw [Prod.mk.injEq] at h
      obtain ⟨pre, v, post, hd, hl, hp⟩ := ih (Prod.ext rfl h.2)
      refine ⟨kv :: pre, v, post, by rw [hd, List.cons_append], by rw [List.length_cons, hl, h.1], ?_⟩
      intro a ha
      rcases List.mem_cons.mp ha with rfl | ha
      · exact (cmp_eq_gt_iff _ _).mp hc
      · exact hp a ha
    · rename_i hc
      cases h
      have hk := (cmp_eq_eq_iff _ _).mp hc
      exact ⟨[], kv.2, data, by rw [hk]; rfl, rfl, by simp⟩
    · cases h

theorem searchLinear_false {data : List (K × V)} {key : K} {i : Nat} (hs : Sorted data)
    (h : searchLinear data key = (i, false)) :
    ∃ pre post, data = pre ++ post ∧ pre.length = i ∧ (∀ a ∈ pre, a.1 < key) ∧
      ∀ a ∈ post, key < a.1 := by
  induction data generalizing i with
  | nil =>
    cases h
    exact ⟨[], [], rfl, rfl, by simp, by simp⟩
  | cons kv data ih =>
    obtain ⟨hkv, hs⟩ := List.pairwise_cons.mp hs
    rw [searchLinear] at h
    split at h
    · rename_i hc
      rw [Prod.mk.injEq] at h
      obtain ⟨pre, post, hd, hl, hp, hq⟩ := ih hs (Prod.ext rfl h.2)
      refine ⟨kv :: pre, post, by rw [hd, List.cons_append], by rw [List.length_cons, hl, h.1], ?_, hq⟩
      intro a ha
      rcases List.mem_cons.mp ha with rfl | ha
      · exact (cmp_eq_gt_iff _ _).mp hc
      · exact hp a ha
    · cases h
    · rename_i hc
      cases h
      have hk := (cmp_eq_lt_iff _ _).mp hc
      refine ⟨[], kv :: data, rfl, rfl, by simp, ?_⟩
      intro a ha
      rcases List.mem_cons.mp ha with rfl | ha
      · exact hk
      · exact hk.trans (hkv a ha)

/-- The new pair stands where it belongs among the pairs `old`. -/
def Placed (key : K) (value : V) (old new : List (K × V)) : Prop :=
  ∃ xs ys, old = xs ++ ys ∧ new = xs ++ (key, value) :: ys ∧ (∀ a ∈ xs, a.1 < key) ∧
    ∀ a ∈ ys, key < a.1

theorem placed_sorted {key : K} {value : V} {old new : List (K × V)} (h : Placed key value old new)
    (hs : Sorted old) : Sorted new := by
  obtain ⟨xs, ys, rfl, rfl, hx, hy⟩ := h
  exact pairwise_insert hs hx hy

theorem placed_absent {key : K} {value v : V} {old new : List (K × V)}
    (h : Placed key value old new) : (key, v) ∉ old := by
  obtain ⟨xs, ys, rfl, -, hx, hy⟩ := h
  intro hm
  rcases List.mem_append.mp hm with hm | hm
  · exact lt_irrefl key (hx _ hm)
  · exact lt_irrefl key (hy _ hm)

theorem placed_length {key : K} {value : V} {old new : List (K × V)}
    (h : Placed key value old new) : new.length = old.length + 1 := by
  obtain ⟨xs, ys, rfl, rfl, -, -⟩ := h
  simp
  omega

/-- Placing in one child places in the whole node. -/
theorem placed_focus {key : K} {value : V} {l l' m r : List (K × V)} (h : Placed key value m l')
    (hl : ∀ a ∈ l, a.1 < key) (hr : ∀ a ∈ r, key < a.1) :
    Placed key value (l ++ m ++ r) (l ++ l' ++ r) := by
  obtain ⟨xs, ys, rfl, rfl, hx, hy⟩ := h
  refine ⟨l ++ xs, ys ++ r, by simp, by simp, ?_, ?_⟩
  · intro a ha
    rcases List.mem_append.mp ha with ha | ha
    · exact hl a ha
    · exact hx a ha
  · intro a ha
    rcases List.mem_append.mp ha with ha | ha
    · exact hy a ha
    · exact hr a ha

/-- Where the search goes down, everything to the left is smaller and
everything to the right is larger. -/
theorem sides_of_search {key : K} {pre post m : List (K × V)} {ls rs : List (List (K × V))}
    (hs : Sorted (before ls pre ++ m ++ after post rs)) (hpre : ∀ a ∈ pre, a.1 < key)
    (hpost : ∀ a ∈ post, key < a.1) :
    (∀ a ∈ before ls pre, a.1 < key) ∧ ∀ a ∈ after post rs, key < a.1 := by
  obtain ⟨h₁, h₂, -⟩ := List.pairwise_append.mp hs
  constructor
  · intro a ha
    obtain ⟨x, hx, rfl | hax⟩ := before_bound (List.pairwise_append.mp h₁).1 a ha
    · exact hpre _ hx
    · exact hax.trans (hpre x hx)
  · intro a ha
    obtain ⟨x, hx, rfl | hax⟩ := after_bound h₂ a ha
    · exact hpost _ hx
    · exact (hpost x hx).trans hax

/-- How many nodes at the end of the search path are full, from the leaf up. -/
def fullRun (key : K) : {h : Nat} → Node K V h → Nat
  | 0, n => if (Node.data n).length < CAPACITY then 0 else 1
  | h + 1, n =>
    match (InternalNode.edges n)[(searchLinear (InternalNode.data n) key).1]? with
    | none => 0
    | some e =>
      if fullRun key e = h + 1 ∧ ¬ (InternalNode.data n).length < CAPACITY then h + 2
      else fullRun key e

/-- What an insertion promises for each of its outcomes. -/
def InsertSpec (ok : Nat → Bool) (key : K) (value : V) {h : Nat} (n : Node K V h) :
    InsertResult K V h → Prop
  | .occupied old n' => Sized n' ∧ n'.len = n.len ∧
    ∃ xs ys, n.pairs = xs ++ (key, old) :: ys ∧ n'.pairs = xs ++ (key, value) :: ys
  | .fit n' => Sized n' ∧ n.len ≤ n'.len ∧ Placed key value n.pairs n'.pairs ∧
    fullRun key n ≤ h ∧ ∀ j < fullRun key n, ok j = true
  | .split left kv right => (Sized left ∧ SMALLEST ≤ left.len) ∧ (Sized right ∧ SMALLEST ≤ right.len) ∧
    Placed key value n.pairs (left.pairs ++ kv :: right.pairs) ∧
    fullRun key n = h + 1 ∧ ∀ j < fullRun key n, ok j = true
  | .failed n' => Sized n' ∧ min SMALLEST n.len ≤ n'.len ∧
    (∃ l, Placed key value n.pairs l ∧ n'.pairs.Sublist l) ∧ ∃ j < fullRun key n, ok j = false

theorem leafInsert_spec {ok : Nat → Bool} {key : K} {value : V} {data pre post : List (K × V)}
    (hn : data.length ≤ CAPACITY) (hd : data = pre ++ post) (hpre : ∀ a ∈ pre, a.1 < key)
    (hpost : ∀ a ∈ post, key < a.1) :
    ∃ r, leafInsert data pre.length (key, value) (ok 0) = some r ∧
      InsertSpec ok key value (h := 0) data r := by
  have hins : data.insertIdx pre.length (key, value) = pre ++ (key, value) :: post := by
    rw [hd]
    simpa using insertIdx_append_right pre post (key, value) 0
  have hplaced : Placed key value data (data.insertIdx pre.length (key, value)) :=
    ⟨pre, post, hd, hins, hpre, hpost⟩
  have hidx : pre.length ≤ data.length := by rw [hd, List.length_append]; omega
  have hlen := List.length_insertIdx_of_le_length hidx (key, value)
  rw [leafInsert]
  split
  · rename_i hlt
    have hrun : fullRun key (h := 0) data = 0 := if_pos hlt
    refine ⟨_, rfl, ?_, ?_, hplaced, Nat.le_of_eq hrun, by rw [hrun]; simp⟩
    · change (data.insertIdx pre.length (key, value)).length ≤ CAPACITY
      omega
    · change data.length ≤ (data.insertIdx pre.length (key, value)).length
      omega
  · rename_i hfull
    have hrun : fullRun key (h := 0) data = 1 := if_neg hfull
    have hlen11 : data.length = CAPACITY := by omega
    split
    · rename_i hok
      obtain ⟨left, middle, right, hsplit, hleft⟩ :=
        exists_split (l := data) (i := B) (by rw [hlen11]; decide)
      have hright : right.length = SMALLEST := by
        have h := congrArg List.length hsplit
        rw [List.length_append, List.length_cons, hleft, hlen11] at h
        simp only [CAPACITY, SMALLEST, B] at *
        omega
      have htake : data.take B = left := by rw [hsplit, ← hleft]; simp
      have hdrop : data.drop (B + 1) = right := by rw [hsplit, ← hleft]; simp
      have hmid : data[B]? = some middle := by rw [hsplit, ← hleft]; simp
      have hall : ∀ j < 1, ok j = true := by
        intro j hj
        rwa [Nat.lt_one_iff.mp hj]
      rw [hmid, Option.map_some, htake, hdrop]
      refine ⟨_, rfl, ?_⟩
      split
      · rename_i hle
        have heq : data.insertIdx pre.length (key, value) =
            left.insertIdx pre.length (key, value) ++ middle :: right := by
          rw [hsplit, insertIdx_append_left _ _ (by omega)]
        have hl : (left.insertIdx pre.length (key, value)).length = left.length + 1 :=
          List.length_insertIdx_of_le_length (by omega) _
        refine ⟨⟨?_, ?_⟩, ⟨?_, ?_⟩, ?_, hrun, by rwa [hrun]⟩
        · change (left.insertIdx pre.length (key, value)).length ≤ CAPACITY
          simp only [CAPACITY, SMALLEST, B] at *
          omega
        · change SMALLEST ≤ (left.insertIdx pre.length (key, value)).length
          simp only [CAPACITY, SMALLEST, B] at *
          omega
        · change right.length ≤ CAPACITY
          rw [hright]
          decide
        · exact Nat.le_of_eq hright.symm
        · change Placed key value data (left.insertIdx pre.length (key, value) ++ middle :: right)
          rwa [← heq]
      · rename_i hgt
        have heq : data.insertIdx pre.length (key, value) =
            left ++ middle :: right.insertIdx (pre.length - (B + 1)) (key, value) := by
          obtain ⟨i, hi⟩ : ∃ i, pre.length = left.length + (i + 1) := ⟨pre.length - B - 1, by omega⟩
          have hi' : pre.length - (B + 1) = i := by omega
          rw [hi', hi, hsplit, insertIdx_append_right, List.insertIdx_succ_cons]
        have hl : (right.insertIdx (pre.length - (B + 1)) (key, value)).length = right.length + 1 := by
          refine List.length_insertIdx_of_le_length ?_ _
          simp only [CAPACITY, SMALLEST, B] at *
          omega
        refine ⟨⟨?_, ?_⟩, ⟨?_, ?_⟩, ?_, hrun, by rwa [hrun]⟩
        · change left.length ≤ CAPACITY
          rw [hleft]
          decide
        · change SMALLEST ≤ left.length
          rw [hleft]
          decide
        · change (right.insertIdx (pre.length - (B + 1)) (key, value)).length ≤ CAPACITY
          rw [hl, hright]
          decide
        · change SMALLEST ≤ (right.insertIdx (pre.length - (B + 1)) (key, value)).length
          omega
        · change Placed key value data
            (left ++ middle :: right.insertIdx (pre.length - (B + 1)) (key, value))
          rwa [← heq]
    · rename_i hok
      refine ⟨_, rfl, hn, Nat.min_le_right _ _, ⟨_, hplaced, ?_⟩, 0, by rw [hrun]; decide,
        by simpa using hok⟩
      change data.Sublist _
      rw [hins, hd]
      exact (List.Sublist.refl pre).append (List.sublist_cons_self _ _)

end Order

/-- Cutting an (overfull) node at a middle pair gives two nodes. -/
theorem split_halves {h : Nat} {data ldata rdata : List (K × V)}
    {edges ledges redges : List (Node K V h)} {middle : K × V}
    (hd : data = ldata ++ middle :: rdata) (he : edges = ledges ++ redges)
    (hl : ledges.length = ldata.length + 1) (hr : redges.length = rdata.length + 1)
    (hsl : SMALLEST ≤ ldata.length ∧ ldata.length ≤ CAPACITY)
    (hsr : SMALLEST ≤ rdata.length ∧ rdata.length ≤ CAPACITY)
    (hall : ∀ x ∈ edges, Sized x ∧ SMALLEST ≤ x.len) :
    (Sized (h := h + 1) ⟨ldata, ledges⟩ ∧ SMALLEST ≤ Node.len (h := h + 1) ⟨ldata, ledges⟩) ∧
    (Sized (h := h + 1) ⟨rdata, redges⟩ ∧ SMALLEST ≤ Node.len (h := h + 1) ⟨rdata, redges⟩) ∧
    Node.pairs (h := h + 1) ⟨ldata, ledges⟩ ++ middle :: Node.pairs (h := h + 1) ⟨rdata, redges⟩ =
      weave (edges.map Node.pairs) data := by
  refine ⟨⟨⟨hsl.2, hl, ?_⟩, hsl.1⟩, ⟨⟨hsr.2, hr, ?_⟩, hsr.1⟩, ?_⟩
  · intro x hx
    exact hall x (he ▸ List.mem_append_left _ hx)
  · intro x hx
    exact hall x (he ▸ List.mem_append_right _ hx)
  · rw [pairs_internal, pairs_internal, hd, he, List.map_append]
    exact (weave_split _ _ _ (by simpa using hl)).symm

theorem mem_focus {N : Type} {x e e' : N} {epre epost : List N} (h : x ∈ epre ++ e' :: epost) :
    x = e' ∨ x ∈ epre ++ e :: epost := by
  simp only [List.mem_append, List.mem_cons] at h ⊢
  tauto

/-- A pair and an edge put to the right of the edge `e`: the node takes them,
or it is split around its middle pair, or there is no memory for that. -/
theorem internalInsert_spec {h : Nat} {n : InternalNode K V (Node K V h)}
    {pre post : List (K × V)} {epre epost : List (Node K V h)} {e r : Node K V h} (kv : K × V)
    (ok : Bool) (hd : n.data = pre ++ post) (he : n.edges = epre ++ e :: epost)
    (h₁ : epre.length = pre.length) (h₂ : epost.length = post.length)
    (hn : n.data.length ≤ CAPACITY) (hall : ∀ x ∈ n.edges, Sized x ∧ SMALLEST ≤ x.len)
    (hr : Sized r ∧ SMALLEST ≤ r.len) :
    (n.data.length < CAPACITY ∧ ∃ n', internalInsert n pre.length kv r ok = some (.fit n') ∧
      Sized n' ∧ n.data.length ≤ n'.len ∧
      n'.pairs = before (epre.map Node.pairs) pre ++ (e.pairs ++ kv :: r.pairs) ++
        after post (epost.map Node.pairs)) ∨
    (¬ n.data.length < CAPACITY ∧ ok = true ∧ ∃ left middle right,
      internalInsert n pre.length kv r ok = some (.split left middle right) ∧
      (Sized left ∧ SMALLEST ≤ left.len) ∧ (Sized right ∧ SMALLEST ≤ right.len) ∧
      left.pairs ++ middle :: right.pairs =
        before (epre.map Node.pairs) pre ++ (e.pairs ++ kv :: r.pairs) ++
          after post (epost.map Node.pairs)) ∨
    (¬ n.data.length < CAPACITY ∧ ok = false ∧
      internalInsert n pre.length kv r ok = some (.failed n)) := by
  have hlen : n.edges.length = n.data.length + 1 := by
    rw [hd, he]
    simp only [List.length_append, List.length_cons]
    omega
  have hidx : pre.length ≤ n.data.length := by rw [hd, List.length_append]; omega
  have hdata : n.data.insertIdx pre.length kv = pre ++ kv :: post := by
    rw [hd]
    simpa using insertIdx_append_right pre post kv 0
  have hedges : n.edges.insertIdx (pre.length + 1) r = epre ++ e :: r :: epost := by
    rw [he, ← h₁, insertIdx_append_right]
    rfl
  -- the pairs of a node that could hold one pair more than its capacity
  have hwhole : weave ((n.edges.insertIdx (pre.length + 1) r).map Node.pairs)
      (n.data.insertIdx pre.length kv) =
      before (epre.map Node.pairs) pre ++ (e.pairs ++ kv :: r.pairs) ++
        after post (epost.map Node.pairs) := by
    rw [hdata, hedges]
    exact pairs_siblings e r kv h₁ h₂
  have hmem : ∀ x ∈ n.edges.insertIdx (pre.length + 1) r, Sized x ∧ SMALLEST ≤ x.len := by
    intro x hx
    rcases (List.mem_insertIdx (by omega)).mp hx with rfl | hx
    · exact hr
    · exact hall x hx
  rw [internalInsert]
  split
  · rename_i hlt
    have hl : (n.data.insertIdx pre.length kv).length = n.data.length + 1 :=
      List.length_insertIdx_of_le_length hidx _
    refine .inl ⟨hlt, _, rfl, ⟨?_, ?_, hmem⟩, ?_, hwhole⟩
    · change (n.data.insertIdx pre.length kv).length ≤ CAPACITY
      omega
    · change (n.edges.insertIdx (pre.length + 1) r).length = (n.data.insertIdx pre.length kv).length + 1
      rw [List.length_insertIdx_of_le_length (by omega), hl, hlen]
    · change n.data.length ≤ (n.data.insertIdx pre.length kv).length
      omega
  · rename_i hfull
    split
    · rename_i hok
      obtain ⟨left, middle, right, hsplit, hleft⟩ :=
        exists_split (l := n.data) (i := B) (by simp only [CAPACITY, B] at *; omega)
      have hright : right.length = SMALLEST := by
        have hl := congrArg List.length hsplit
        rw [List.length_append, List.length_cons, hleft] at hl
        simp only [CAPACITY, SMALLEST, B] at *
        omega
      have heleft : (n.edges.take (B + 1)).length = left.length + 1 := by
        rw [List.length_take, hlen]
        simp only [CAPACITY, B] at *
        omega
      have heright : (n.edges.drop (B + 1)).length = right.length + 1 := by
        rw [List.length_drop, hlen]
        simp only [CAPACITY, SMALLEST, B] at *
        omega
      have htake : n.data.take B = left := by rw [hsplit, ← hleft]; simp
      have hdrop : n.data.drop (B + 1) = right := by rw [hsplit, ← hleft]; simp
      have hmid : n.data[B]? = some middle := by rw [hsplit, ← hleft]; simp
      have hcut : n.edges = n.edges.take (B + 1) ++ n.edges.drop (B + 1) := by simp
      refine .inr (.inl ⟨hfull, hok, ?_⟩)
      rw [hmid, Option.map_some]
      split
      · rename_i hle
        have hl : (left.insertIdx pre.length kv).length = left.length + 1 :=
          List.length_insertIdx_of_le_length (by omega) _
        have hel : ((n.edges.take (B + 1)).insertIdx (pre.length + 1) r).length = left.length + 2 := by
          rw [List.length_insertIdx_of_le_length (by omega), heleft]
        have hdata' : n.data.insertIdx pre.length kv =
            left.insertIdx pre.length kv ++ middle :: right := by
          rw [hsplit, insertIdx_append_left _ _ (by omega)]
        have hedges' : n.edges.insertIdx (pre.length + 1) r =
            (n.edges.take (B + 1)).insertIdx (pre.length + 1) r ++ n.edges.drop (B + 1) := by
          rw [← insertIdx_append_left _ _ (by omega), ← hcut]
        obtain ⟨h₃, h₄, h₅⟩ := split_halves hdata' hedges' (by omega) heright
          (by simp only [CAPACITY, SMALLEST, B] at *; omega)
          (by simp only [CAPACITY, SMALLEST, B] at *; omega) hmem
        refine ⟨_, _, _, rfl, ?_⟩
        rw [InternalNode.insertFit, InternalNode.splitLeft, InternalNode.splitRight, htake, hdrop,
          ← hwhole]
        exact ⟨h₃, h₄, h₅⟩
      · rename_i hgt
        obtain ⟨i, hi⟩ : ∃ i, pre.length = B + 1 + i := ⟨pre.length - (B + 1), by omega⟩
        have hi' : pre.length - (B + 1) = i := by omega
        have hsum : n.data.length = left.length + right.length + 1 := by
          rw [hsplit, List.length_append, List.length_cons]
          omega
        have hl : (right.insertIdx i kv).length = right.length + 1 :=
          List.length_insertIdx_of_le_length (by omega) _
        have hel : ((n.edges.drop (B + 1)).insertIdx (i + 1) r).length = right.length + 2 := by
          rw [List.length_insertIdx_of_le_length (by omega), heright]
        have hdata' : n.data.insertIdx pre.length kv = left ++ middle :: right.insertIdx i kv := by
          have hp : pre.length = left.length + (i + 1) := by omega
          rw [hp, hsplit, insertIdx_append_right, List.insertIdx_succ_cons]
        have hedges' : n.edges.insertIdx (pre.length + 1) r =
            n.edges.take (B + 1) ++ (n.edges.drop (B + 1)).insertIdx (i + 1) r := by
          have hp : pre.length + 1 = (n.edges.take (B + 1)).length + (i + 1) := by omega
          rw [← insertIdx_append_right, ← hcut, hp]
        obtain ⟨h₃, h₄, h₅⟩ := split_halves hdata' hedges' heleft (by omega)
          (by simp only [CAPACITY, SMALLEST, B] at *; omega)
          (by simp only [CAPACITY, SMALLEST, B] at *; omega) hmem
        refine ⟨_, _, _, rfl, ?_⟩
        rw [InternalNode.insertFit, InternalNode.splitLeft, InternalNode.splitRight, htake, hdrop, hi',
          ← hwhole]
        exact ⟨h₃, h₄, h₅⟩
    · rename_i hok
      exact .inr (.inr ⟨hfull, by simpa using hok, rfl⟩)

theorem sized_setEdge {h : Nat} {n : InternalNode K V (Node K V h)} {e e' : Node K V h}
    {epre epost : List (Node K V h)} (hn : Sized (h := h + 1) n) (he : n.edges = epre ++ e :: epost)
    (he' : Sized e' ∧ SMALLEST ≤ e'.len) :
    Sized (h := h + 1) ⟨n.data, epre ++ e' :: epost⟩ := by
  refine ⟨hn.1, ?_, ?_⟩
  · have hl := hn.2.1
    rw [he] at hl
    simpa using hl
  · intro x hx
    rcases mem_focus (e := e) hx with rfl | hx
    · exact he'
    · exact hn.2.2 x (he ▸ hx)

theorem setEdge_focus {N : Type} {n : InternalNode K V N} {epre epost : List N} {e : N} (e' : N)
    (he : n.edges = epre ++ e :: epost) :
    n.setEdge epre.length e' = ⟨n.data, epre ++ e' :: epost⟩ := by
  rw [InternalNode.setEdge, he]
  simp

section Order

variable [LinearOrder K]

theorem leaf_occupied (ok : Nat → Bool) (value : V) {key : K} {v : V} {data pre post : List (K × V)}
    (hn : data.length ≤ CAPACITY) (hd : data = pre ++ (key, v) :: post) :
    data[pre.length]? = some (key, v) ∧ InsertSpec ok key value (h := 0) data
      (.occupied v (data.set pre.length (key, value) : List (K × V))) := by
  refine ⟨by rw [hd]; simp, ?_, ?_, pre, post, hd, by rw [hd]; simp [Node.pairs]⟩
  · change (data.set pre.length (key, value)).length ≤ CAPACITY
    rwa [List.length_set]
  · exact List.length_set

theorem internal_occupied {h : Nat} (ok : Nat → Bool) (value : V) {key : K} {v : V}
    {n : InternalNode K V (Node K V h)} {pre post : List (K × V)} (hn : Sized (h := h + 1) n)
    (hd : n.data = pre ++ (key, v) :: post) :
    n.data[pre.length]? = some (key, v) ∧ InsertSpec ok key value (h := h + 1) n
      (.occupied v (n.setKv pre.length (key, value))) := by
  obtain ⟨epre, e, epost, he, h₁, h₂⟩ := edges_focus hn.2.1 hd
  have hset : n.data.set pre.length (key, value) = pre ++ (key, value) :: post := by
    rw [hd]
    simp
  have hlen : (n.data.set pre.length (key, value)).length = n.data.length := List.length_set
  cases epost with
  | nil => cases h₂
  | cons r epost =>
    refine ⟨by rw [hd]; simp, ⟨?_, ?_, hn.2.2⟩, hlen,
      before (epre.map Node.pairs) pre ++ e.pairs, r.pairs ++ after post (epost.map Node.pairs), ?_, ?_⟩
    · exact Nat.le_trans (Nat.le_of_eq hlen) hn.1
    · exact hn.2.1.trans (congrArg (· + 1) hlen.symm)
    · have h := pairs_focus hd he h₁ h₂
      rw [List.map_cons, after_cons] at h
      exact h
    · have h := pairs_focus hset he h₁ (by simpa using h₂)
      rw [List.map_cons, after_cons] at h
      exact h

/-- One level of the way back up, below which the insertion kept its promise. -/
theorem ascend_spec {h : Nat} {ok : Nat → Bool} {key : K} {value : V}
    {n : InternalNode K V (Node K V h)} {pre post : List (K × V)} {epre epost : List (Node K V h)}
    {e : Node K V h} (hn : Sized (h := h + 1) n) (hs : Sorted (Node.pairs (h := h + 1) n))
    (hd : n.data = pre ++ post) (he : n.edges = epre ++ e :: epost)
    (h₁ : epre.length = pre.length) (h₂ : epost.length = post.length)
    (hpre : ∀ a ∈ pre, a.1 < key) (hpost : ∀ a ∈ post, key < a.1)
    (hrun : fullRun key (h := h + 1) n =
      if fullRun key e = h + 1 ∧ ¬ n.data.length < CAPACITY then h + 2 else fullRun key e)
    {r : InsertResult K V h} (hr : InsertSpec ok key value e r) :
    ∃ r', ascend n pre.length (ok (h + 1)) r = some r' ∧
      InsertSpec ok key value (h := h + 1) n r' := by
  have hpairs := pairs_focus hd he h₁ h₂
  have hpairs' : ∀ e' : Node K V h, Node.pairs (h := h + 1) ⟨n.data, epre ++ e' :: epost⟩ =
      before (epre.map Node.pairs) pre ++ e'.pairs ++ after post (epost.map Node.pairs) :=
    fun e' => pairs_focus hd rfl h₁ h₂
  have hside : Sorted (before (epre.map Node.pairs) pre ++ e.pairs ++ after post (epost.map Node.pairs)) :=
    hpairs ▸ hs
  obtain ⟨hleft, hright⟩ := sides_of_search hside hpre hpost
  have hset : ∀ e', n.setEdge pre.length e' = ⟨n.data, epre ++ e' :: epost⟩ := by
    intro e'
    rw [← h₁]
    exact setEdge_focus e' he
  have hsmall : SMALLEST ≤ e.len := (hn.2.2 e (by rw [he]; simp)).2
  have hpn : Node.pairs (h := h + 1) n =
      before (epre.map Node.pairs) pre ++ e.pairs ++ after post (epost.map Node.pairs) := hpairs
  cases r with
  | occupied old e' =>
    obtain ⟨hsz, hlen, xs, ys, hx, hy⟩ := hr
    refine ⟨_, rfl, ?_⟩
    rw [hset]
    refine ⟨sized_setEdge hn he ⟨hsz, hlen ▸ hsmall⟩, rfl,
      before (epre.map Node.pairs) pre ++ xs, ys ++ after post (epost.map Node.pairs), ?_, ?_⟩
    · rw [hpn, hx]
      simp
    · rw [hpairs', hy]
      simp
  | fit e' =>
    obtain ⟨hsz, hlen, hp, hle, hok⟩ := hr
    have hrun' : fullRun key (h := h + 1) n = fullRun key e := by
      rw [hrun, if_neg]
      omega
    refine ⟨_, rfl, ?_⟩
    rw [hset]
    refine ⟨sized_setEdge hn he ⟨hsz, Nat.le_trans hsmall hlen⟩, Nat.le_refl _, ?_, ?_, ?_⟩
    · rw [hpn, hpairs']
      exact placed_focus hp hleft hright
    · rw [hrun']
      omega
    · rwa [hrun']
  | failed e' =>
    obtain ⟨hsz, hlen, ⟨l, hp, hsub⟩, j, hj, hok⟩ := hr
    refine ⟨_, rfl, ?_⟩
    rw [hset]
    refine ⟨sized_setEdge hn he ⟨hsz, by omega⟩, Nat.min_le_right _ _,
      ⟨before (epre.map Node.pairs) pre ++ l ++ after post (epost.map Node.pairs), ?_, ?_⟩, j, ?_, hok⟩
    · rw [hpn]
      exact placed_focus hp hleft hright
    · rw [hpairs']
      exact ((List.Sublist.refl _).append hsub).append (List.Sublist.refl _)
    · rw [hrun]
      split <;> omega
  | split left kv right =>
    obtain ⟨hl, hrt, hp, hfull, hok⟩ := hr
    have hplaced := placed_focus hp hleft hright
    rw [← hpn] at hplaced
    have hn₁ := sized_setEdge hn he hl
    rw [ascend, hset]
    rcases internalInsert_spec (n := ⟨n.data, epre ++ left :: epost⟩) kv (ok (h + 1)) hd rfl h₁ h₂
      hn.1 hn₁.2.2 hrt with ⟨hlt, n', hi, hsz, hlen, hpr⟩ | ⟨hnlt, hokh, l', m, r', hi, hl', hr', hpr⟩ |
        ⟨hnlt, hokh, hi⟩
    · have hrun' : fullRun key (h := h + 1) n = fullRun key e := by
        rw [hrun, if_neg]
        exact fun hx => hx.2 hlt
      refine ⟨_, hi, hsz, hlen, ?_, ?_, ?_⟩
      · rwa [hpr]
      · exact Nat.le_of_eq (hrun'.trans hfull)
      · rwa [hrun']
    · have hrun' : fullRun key (h := h + 1) n = h + 2 := by rw [hrun, if_pos ⟨hfull, hnlt⟩]
      refine ⟨_, hi, hl', hr', ?_, hrun', ?_⟩
      · rwa [hpr]
      · intro j hj
        rw [hrun'] at hj
        by_cases hjh : j = h + 1
        · rw [hjh]
          exact hokh
        · exact hok j (by omega)
    · have hrun' : fullRun key (h := h + 1) n = h + 2 := by rw [hrun, if_pos ⟨hfull, hnlt⟩]
      refine ⟨_, hi, hn₁, Nat.min_le_right _ _, ⟨_, hplaced, ?_⟩, h + 1, by omega, hokh⟩
      rw [hpairs']
      exact ((List.Sublist.refl _).append (List.sublist_append_left _ _)).append (List.Sublist.refl _)

/-- An insertion always has an outcome, and every outcome keeps its promise. -/
theorem insertNode_spec (ok : Nat → Bool) (key : K) (value : V) {h : Nat} (n : Node K V h)
    (hn : Sized n) (hs : Sorted n.pairs) :
    ∃ r, insertNode ok key value n = some r ∧ InsertSpec ok key value n r := by
  induction h with
  | zero =>
    rw [insertNode]
    split
    · rename_i i hsearch
      obtain ⟨pre, v, post, hd, rfl, -⟩ := searchLinear_true hsearch
      obtain ⟨hget, hspec⟩ := leaf_occupied ok value hn hd
      exact ⟨_, by rw [show (Node.data n)[pre.length]? = some (key, v) from hget]; rfl, hspec⟩
    · rename_i i hsearch
      obtain ⟨pre, post, hd, rfl, hpre, hpost⟩ := searchLinear_false hs hsearch
      exact leafInsert_spec hn hd hpre hpost
  | succ h ih =>
    have hsd : Sorted (InternalNode.data n) := hs.sublist (sublist_weave (by simpa using hn.2.1))
    rw [insertNode]
    split
    · rename_i i hsearch
      obtain ⟨pre, v, post, hd, rfl, -⟩ := searchLinear_true hsearch
      obtain ⟨hget, hspec⟩ := internal_occupied ok value hn hd
      exact ⟨_, by rw [hget]; rfl, hspec⟩
    · rename_i i hsearch
      obtain ⟨pre, post, hd, rfl, hpre, hpost⟩ := searchLinear_false hsd hsearch
      obtain ⟨epre, e, epost, he, h₁, h₂⟩ := edges_focus hn.2.1 hd
      have hget : (InternalNode.edges n)[pre.length]? = some e := by
        rw [he, ← h₁]
        simp
      have hrun : fullRun key (h := h + 1) n =
          if fullRun key e = h + 1 ∧ ¬ (InternalNode.data n).length < CAPACITY then h + 2
          else fullRun key e := by
        rw [fullRun, hsearch, hget]
      have hside : Sorted (before (epre.map Node.pairs) pre ++ e.pairs ++
          after post (epost.map Node.pairs)) := by
        rw [← pairs_focus hd he h₁ h₂]
        exact hs
      have hse : Sorted e.pairs := (List.pairwise_append.mp (List.pairwise_append.mp hside).1).2.1
      obtain ⟨r, hr, hspec⟩ := ih e (hn.2.2 e (by rw [he]; simp)).1 hse
      rw [hget, Option.bind_some, hr, Option.bind_some]
      exact ascend_spec hn hs hd he h₁ h₂ hpre hpost hrun hspec

end Order

end Crabos.BTree
