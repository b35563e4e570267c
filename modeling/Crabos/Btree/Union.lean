import Crabos.Btree.Append
import Crabos.Btree.Ordered

/-!
# Appending a map that succeeds

While the merged pairs are pushed, every node that is not at the right edge is
full, and so are all nodes below it. This is what lets each node at the right
edge steal enough from its left sibling once all pairs are in.
-/
namespace Crabos.BTree

open Crabos.Weave Crabos.Run

variable {K V : Type}

/-- Every node holds as many pairs as it can. -/
def Packed : {h : Nat} → Node K V h → Prop
  | 0, n => (Node.data n).length = CAPACITY
  | h + 1, n => (InternalNode.data n).length = CAPACITY ∧
    (InternalNode.edges n).length = (InternalNode.data n).length + 1 ∧
    ∀ e ∈ InternalNode.edges n, Packed (h := h) e

/-- Every node is packed but those at the right edge. -/
def RightOpen : {h : Nat} → Node K V h → Prop
  | 0, n => (Node.data n).length ≤ CAPACITY
  | h + 1, n => (InternalNode.data n).length ≤ CAPACITY ∧
    ∃ (edges : List (Node K V h)) (last : Node K V h), InternalNode.edges n = edges ++ [last] ∧
      edges.length = (InternalNode.data n).length ∧ (∀ e ∈ edges, Packed e) ∧ RightOpen last

theorem Packed.len {h : Nat} {n : Node K V h} (hn : Packed n) : n.len = CAPACITY := by
  cases h with
  | zero => exact hn
  | succ h => exact hn.1

theorem Packed.sized {h : Nat} {n : Node K V h} (hn : Packed n) : Sized n := by
  induction h with
  | zero => exact Nat.le_of_eq hn
  | succ h ih =>
    refine ⟨Nat.le_of_eq hn.1, hn.2.1, fun e he => ⟨ih (hn.2.2 e he), ?_⟩⟩
    rw [(hn.2.2 e he).len]
    decide

theorem newTree_open {ok : Nat → Bool} {c h : Nat} {tree : Node K V h}
    (ht : newTree ok c h = some tree) : RightOpen tree := by
  induction h with
  | zero =>
    rw [newTree] at ht
    split at ht
    · cases ht
      exact Nat.zero_le _
    · cases ht
  | succ h ih =>
    obtain ⟨sub, hsub, ht⟩ := Option.bind_eq_some_iff.mp ht
    split at ht
    · cases ht
      exact ⟨Nat.zero_le _, [], sub, rfl, rfl, by simp, ih hsub⟩
    · cases ht

/-- A push keeps the shape, and it finds a tree full only if that is packed. -/
def PushedOpen {h : Nat} (n : Node K V h) : PushResult K V h → Prop
  | .pushed n' _ => RightOpen n' ∧ n.len ≤ n'.len
  | .full => Packed n
  | .failed => True

theorem pushTree_open {h : Nat} (ok : Nat → Bool) (c : Nat) (kv : K × V)
    {n : InternalNode K V (Node K V h)} (hlen : n.data.length < CAPACITY)
    (hedges : n.edges.length = n.data.length + 1) (hall : ∀ e ∈ n.edges, Packed e) :
    ∀ n' c', pushTree ok c kv n = .pushed n' c' →
      RightOpen n' ∧ n.data.length + 1 = Node.len (h := h + 1) n' := by
  intro n' c' hp
  rw [pushTree] at hp
  cases ht : newTree ok c h with
  | none =>
    rw [ht] at hp
    cases hp
  | some tree =>
    rw [ht] at hp
    cases hp
    refine ⟨⟨?_, n.edges, tree, rfl, ?_, hall, newTree_open ht⟩, ?_⟩
    · simpa using hlen
    · simpa using hedges
    · simp [Node.len, Node.data]

theorem pushTree_ne_full {h : Nat} (ok : Nat → Bool) (c : Nat) (kv : K × V)
    (n : InternalNode K V (Node K V h)) : pushTree ok c kv n ≠ .full := by
  rw [pushTree]
  cases newTree ok c h <;> simp

theorem pushBack_open (ok : Nat → Bool) (c : Nat) (kv : K × V) {h : Nat} {n : Node K V h}
    (hn : RightOpen n) {r : PushResult K V h} (hr : pushBack ok c kv n = some r) : PushedOpen n r := by
  induction h with
  | zero =>
    rw [pushBack, Option.some.injEq] at hr
    have hle : (Node.data n).length ≤ CAPACITY := hn
    split at hr
    · subst hr
      refine ⟨?_, ?_⟩
      · change (Node.data n ++ [kv]).length ≤ CAPACITY
        simp
        omega
      · change (Node.data n).length ≤ (Node.data n ++ [kv]).length
        simp
    · subst hr
      change (Node.data n).length = CAPACITY
      omega
  | succ h ih =>
    obtain ⟨hle, edges, last, he, hlen, hall, hlast⟩ := hn
    rw [pushBack] at hr
    obtain ⟨e, hget, hr⟩ := Option.bind_eq_some_iff.mp hr
    obtain ⟨r₁, hr₁, hr⟩ := Option.map_eq_some_iff.mp hr
    have hlast' : e = last := by simpa [he, eq_comm] using hget
    subst hlast'
    have hspec := ih hlast hr₁
    cases r₁ with
    | pushed e' c' =>
      subst hr
      have hset : InternalNode.setEdge n ((InternalNode.edges n).length - 1) e' =
          ⟨InternalNode.data n, edges ++ [e']⟩ := by
        have hlast' : (InternalNode.edges n).length - 1 = edges.length := by simp [he]
        rw [hlast']
        exact setEdge_focus e' he
      simp only [hset]
      exact ⟨⟨hle, edges, e', rfl, hlen, hall, hspec.1⟩, Nat.le_refl _⟩
    | full =>
      have hpacked : ∀ e ∈ InternalNode.edges n, Packed e := by
        intro e hmem
        rw [he] at hmem
        rcases List.mem_append.mp hmem with hmem | hmem
        · exact hall e hmem
        · rw [List.mem_singleton.mp hmem]
          exact hspec
      have hedges : (InternalNode.edges n).length = (InternalNode.data n).length + 1 := by
        simp [he, hlen]
      simp only at hr
      split at hr
      · rename_i hroom
        subst hr
        cases hp : pushTree ok c kv n with
        | pushed n' c' =>
          obtain ⟨hopen, hcount⟩ := pushTree_open ok c kv hroom hedges hpacked n' c' hp
          refine ⟨hopen, ?_⟩
          rw [← hcount]
          exact Nat.le_succ _
        | full => exact absurd hp (pushTree_ne_full ok c kv n)
        | failed => trivial
      · rename_i hfull
        subst hr
        exact ⟨by omega, hedges, hpacked⟩
    | failed =>
      subst hr
      trivial

/-- A pair is in: the tree is still packed but for its right edge, and an
internal root has a pair. -/
def OpenRoot (m : BTreeMap K V) : Prop :=
  RightOpen m.asRef.2 ∧ (0 < m.asRef.1 → 0 < m.asRef.2.len)

theorem pushPair_open (ok : Nat → Bool) {m m' : BTreeMap K V} {c c' : Nat} {kv : K × V} (hm : OpenRoot m)
    (hp : m.pushPair ok c kv = some (.ok c', m')) : OpenRoot m' := by
  obtain ⟨root, length⟩ := m
  cases root with
  | shared => cases hp
  | owned h n =>
    obtain ⟨hopen, hpos⟩ := hm
    rw [BTreeMap.pushPair] at hp
    obtain ⟨r, hr, hp⟩ := Option.map_eq_some_iff.mp hp
    have hspec := pushBack_open ok c kv hopen hr
    cases r with
    | pushed n' c₁ =>
      cases hp
      exact ⟨hspec.1, fun h => Nat.lt_of_lt_of_le (hpos h) hspec.2⟩
    | failed => cases hp
    | full =>
      simp only at hp
      split at hp
      · cases ht : pushTree ok (c + 1) kv (⟨[], [n]⟩ : InternalNode K V (Node K V h)) with
        | pushed root c₁ =>
          simp only [ht] at hp
          cases hp
          have hroom : ([] : List (K × V)).length < CAPACITY := by
            rw [List.length_nil]
            decide
          have hall : ∀ e ∈ [n], Packed e := by
            intro e he
            rw [List.mem_singleton.mp he]
            exact hspec
          obtain ⟨hopen', hcount⟩ :=
            pushTree_open ok (c + 1) kv (n := ⟨[], [n]⟩) hroom rfl hall root _ ht
          exact ⟨hopen', fun _ => hcount ▸ Nat.succ_pos _⟩
        | full => exact absurd ht (pushTree_ne_full ok (c + 1) kv _)
        | failed =>
          rw [ht] at hp
          cases hp
      · cases hp

theorem pushAll_open (ok : Nat → Bool) {m m' : BTreeMap K V} {c : Nat} {kvs : List (K × V)}
    (hm : OpenRoot m) (hp : m.pushAll ok c kvs = some (.ok (), m')) : OpenRoot m' := by
  induction kvs generalizing m c with
  | nil =>
    cases hp
    exact hm
  | cons kv kvs ih =>
    rw [BTreeMap.pushAll] at hp
    obtain ⟨⟨r, m₁⟩, hr, hp⟩ := Option.bind_eq_some_iff.mp hp
    cases r with
    | error e => cases hp
    | ok c' => exact ih (pushPair_open ok hm hr) hp

/-! An allocator that never fails. -/

section plenty

variable {ok : Nat → Bool} (hok : ∀ n, ok n = true)

include hok

theorem newTree_some (c h : Nat) : ∃ tree : Node K V h, newTree ok c h = some tree := by
  induction h with
  | zero => exact ⟨([] : List (K × V)), by simp [newTree, hok]⟩
  | succ h ih =>
    obtain ⟨tree, ht⟩ := ih
    exact ⟨(⟨[], [tree]⟩ : InternalNode K V (Node K V h)), by simp [newTree, ht, hok]⟩

theorem pushTree_pushed {h : Nat} (c : Nat) (kv : K × V) (n : InternalNode K V (Node K V h)) :
    ∃ n' c', pushTree ok c kv n = .pushed n' c' := by
  obtain ⟨tree, ht⟩ := newTree_some (K := K) (V := V) hok c h
  exact ⟨⟨n.data ++ [kv], n.edges ++ [tree]⟩, c + h + 1, by rw [pushTree, ht]⟩

theorem pushBack_ne_failed (c : Nat) (kv : K × V) {h : Nat} (n : Node K V h) :
    pushBack ok c kv n ≠ some .failed := by
  induction h with
  | zero =>
    rw [pushBack]
    split <;> simp
  | succ h ih =>
    intro hp
    rw [pushBack] at hp
    obtain ⟨e, -, hp⟩ := Option.bind_eq_some_iff.mp hp
    obtain ⟨r, hr, hp⟩ := Option.map_eq_some_iff.mp hp
    cases r with
    | pushed e' c' => cases hp
    | failed => exact ih e hr
    | full =>
      obtain ⟨n', c', ht⟩ := pushTree_pushed hok c kv n
      simp only [ht] at hp
      split at hp <;> cases hp

theorem pushAll_ok {m m' : BTreeMap K V} {c : Nat} {kvs : List (K × V)} {r : Except AllocErr Unit}
    (hp : m.pushAll ok c kvs = some (r, m')) : r = .ok () := by
  induction kvs generalizing m c with
  | nil =>
    cases hp
    rfl
  | cons kv kvs ih =>
    rw [BTreeMap.pushAll] at hp
    obtain ⟨⟨r₁, m₁⟩, hr, hp⟩ := Option.bind_eq_some_iff.mp hp
    cases r₁ with
    | ok c' => exact ih hp
    | error e =>
      obtain ⟨root, length⟩ := m
      cases root with
      | shared => cases hr
      | owned h n =>
        rw [BTreeMap.pushPair] at hr
        obtain ⟨r, hback, hr⟩ := Option.map_eq_some_iff.mp hr
        cases r with
        | pushed n' c' => cases hr
        | failed => exact absurd hback (pushBack_ne_failed hok c kv n)
        | full =>
          obtain ⟨n', c', ht⟩ := pushTree_pushed hok (c + 1) kv (⟨[], [n]⟩ : InternalNode K V (Node K V h))
          simp only [hok, if_true, ht] at hr
          cases hr

theorem fromSortedIter_ok {m' : BTreeMap K V} {iter : List (K × V)} {r : Except AllocErr Unit}
    (hp : BTreeMap.fromSortedIter ok BTreeMap.new iter = some (r, m')) : r = .ok () := by
  have hroot : BTreeMap.ensureRootIsOwned (BTreeMap.new : BTreeMap K V) (ok 0) =
      .ok ⟨.owned 0 ([] : List (K × V)), 0⟩ := by
    simp [BTreeMap.ensureRootIsOwned, BTreeMap.new, hok]
  rw [BTreeMap.fromSortedIter, hroot] at hp
  exact pushAll_ok hok hp

end plenty

theorem fromSortedIter_open {ok : Nat → Bool} {m' : BTreeMap K V} {iter : List (K × V)}
    (hp : BTreeMap.fromSortedIter ok BTreeMap.new iter = some (.ok (), m')) : OpenRoot m' := by
  cases h0 : ok 0 with
  | false =>
    have hroot : BTreeMap.ensureRootIsOwned (BTreeMap.new : BTreeMap K V) (ok 0) = .error ⟨⟩ := by
      simp [BTreeMap.ensureRootIsOwned, BTreeMap.new, h0]
    rw [BTreeMap.fromSortedIter, hroot] at hp
    cases hp
  | true =>
    have hroot : BTreeMap.ensureRootIsOwned (BTreeMap.new : BTreeMap K V) (ok 0) =
        .ok ⟨.owned 0 ([] : List (K × V)), 0⟩ := by
      simp [BTreeMap.ensureRootIsOwned, BTreeMap.new, h0]
    rw [BTreeMap.fromSortedIter, hroot] at hp
    have hleaf : OpenRoot (⟨.owned 0 ([] : List (K × V)), 0⟩ : BTreeMap K V) :=
      ⟨Nat.zero_le _, fun h => absurd h (Nat.lt_irrefl 0)⟩
    exact pushAll_open ok hleaf hp

/-- Stealing in bulk: the left node gives its last pairs and edges, through the
pair between the two nodes. -/
theorem bulkStealLeft_spec {h : Nat} {left right : Node K V h} (kv : K × V) {count : Nat}
    (hleft : Packed left) (hright : RightOpen right) (hcount : 0 < count) (hsum : right.len + count = MIN_LEN) :
    ∃ left' kv' right', bulkStealLeft left kv right count = some (left', kv', right') ∧
      (Sized left' ∧ SMALLEST ≤ left'.len) ∧ RightOpen right' ∧ right'.len = MIN_LEN ∧
      left'.pairs ++ kv' :: right'.pairs = left.pairs ++ kv :: right.pairs := by
  have hcap : count ≤ CAPACITY ∧ CAPACITY - count < CAPACITY ∧ SMALLEST ≤ CAPACITY - count ∧
      MIN_LEN ≤ CAPACITY := by
    simp only [MIN_LEN, SMALLEST, CAPACITY, B] at *
    omega
  obtain ⟨hle, hlt, hsmall, hmin⟩ := hcap
  cases h with
  | zero =>
    have hlen : (Node.data left).length = CAPACITY := hleft
    obtain ⟨l, kv', r, hd, hl⟩ := exists_split (l := Node.data left) (i := CAPACITY - count) (by omega)
    have hr : r.length + 1 = count := by
      rw [hd, List.length_append, List.length_cons] at hlen
      omega
    have hlen' : (r ++ kv :: Node.data right).length = MIN_LEN := by
      rw [List.length_append, List.length_cons, ← hsum]
      change r.length + ((Node.data right).length + 1) = (Node.data right).length + count
      omega
    refine ⟨(l : List (K × V)), kv', (r ++ kv :: Node.data right : List (K × V)), ?_,
      ⟨?_, ?_⟩, ?_, hlen', ?_⟩
    · rw [bulkStealLeft, hlen, if_pos hle, hd, ← hl]
      simp
    · change l.length ≤ CAPACITY
      omega
    · change SMALLEST ≤ l.length
      omega
    · change (r ++ kv :: Node.data right).length ≤ CAPACITY
      omega
    · change l ++ kv' :: (r ++ kv :: Node.data right) = Node.data left ++ kv :: Node.data right
      rw [hd]
      simp
  | succ h =>
    obtain ⟨hlen, hedges, hall⟩ := hleft
    obtain ⟨-, edges, last, he, hlen', hpacked, hlast⟩ := hright
    obtain ⟨l, kv', r, hd, hl⟩ :=
      exists_split (l := InternalNode.data left) (i := CAPACITY - count) (by omega)
    have hr : r.length + 1 = count := by
      have := hlen
      rw [hd, List.length_append, List.length_cons] at this
      omega
    have htake : ((InternalNode.edges left).take (l.length + 1)).length = l.length + 1 := by
      rw [List.length_take, hedges, hlen]
      omega
    have hdrop : ((InternalNode.edges left).drop (l.length + 1)).length = r.length + 1 := by
      rw [List.length_drop, hedges, hlen]
      omega
    have hmin' : (r ++ kv :: InternalNode.data right).length = MIN_LEN := by
      rw [List.length_append, List.length_cons, ← hsum]
      change r.length + ((InternalNode.data right).length + 1) = (InternalNode.data right).length + count
      omega
    refine ⟨⟨l, (InternalNode.edges left).take (l.length + 1)⟩, kv',
      ⟨r ++ kv :: InternalNode.data right, (InternalNode.edges left).drop (l.length + 1) ++
        InternalNode.edges right⟩, ?_, ⟨⟨?_, htake, ?_⟩, ?_⟩, ⟨?_, ?_⟩, hmin', ?_⟩
    · rw [bulkStealLeft, hlen, if_pos hle, hd, ← hl]
      simp
    · change l.length ≤ CAPACITY
      omega
    · intro e hmem
      have hp := hall e (List.mem_of_mem_take hmem)
      exact ⟨hp.sized, hp.len ▸ by decide⟩
    · change SMALLEST ≤ l.length
      omega
    · change (r ++ kv :: InternalNode.data right).length ≤ CAPACITY
      omega
    · refine ⟨(InternalNode.edges left).drop (l.length + 1) ++ edges, last, ?_, ?_, ?_, hlast⟩
      · simp [he]
      · change ((InternalNode.edges left).drop (l.length + 1) ++ edges).length =
          (r ++ kv :: InternalNode.data right).length
        rw [List.length_append, hdrop, hlen', List.length_append, List.length_cons]
        omega
      · intro e hmem
        rcases List.mem_append.mp hmem with hmem | hmem
        · exact hall e (List.mem_of_mem_drop hmem)
        · exact hpacked e hmem
    · have hcut : (InternalNode.edges left).map Node.pairs =
          ((InternalNode.edges left).take (l.length + 1)).map Node.pairs ++
            ((InternalNode.edges left).drop (l.length + 1)).map Node.pairs := by
        rw [← List.map_append, List.take_append_drop]
      have hpairs : left.pairs = weave (((InternalNode.edges left).take (l.length + 1)).map Node.pairs) l ++
          kv' :: weave (((InternalNode.edges left).drop (l.length + 1)).map Node.pairs) r := by
        refine Eq.trans (pairs_internal left) ?_
        rw [hcut, hd, weave_split _ kv' r (by rw [List.length_map, htake])]
      rw [hpairs, pairs_internal, pairs_internal, List.map_append,
        weave_split _ kv _ (by rw [List.length_map, hdrop])]
      simp [Node.pairs]

/-- The last child of an open node is one of its edges; another one in its place. -/
theorem sized_of_open {h : Nat} {data : List (K × V)} {edges : List (Node K V h)} {last : Node K V h}
    (hle : data.length ≤ CAPACITY) (hlen : edges.length = data.length)
    (hall : ∀ e ∈ edges, Sized e ∧ SMALLEST ≤ e.len) (hlast : Sized last ∧ SMALLEST ≤ last.len) :
    Sized (h := h + 1) ⟨data, edges ++ [last]⟩ := by
  refine ⟨hle, by simp [hlen], ?_⟩
  intro e he
  rcases List.mem_append.mp he with he | he
  · exact hall e he
  · rw [List.mem_singleton.mp he]
    exact hlast

/-- From the root down every node at the right edge gets enough pairs, and the pairs stay. -/
theorem fixRightEdge_spec {h : Nat} {n : Node K V h} (hn : RightOpen n) (hpos : 0 < h → 0 < n.len) :
    ∃ n', fixRightEdge n = some n' ∧ Sized n' ∧ n'.len = n.len ∧ n'.pairs = n.pairs := by
  induction h with
  | zero => exact ⟨n, rfl, hn, rfl, rfl⟩
  | succ h ih =>
    obtain ⟨hle, edges, right, he, hlen, hall, hopen⟩ := hn
    have hpacked : ∀ e ∈ edges, Sized e ∧ SMALLEST ≤ e.len := by
      intro e hmem
      exact ⟨(hall e hmem).sized, (hall e hmem).len ▸ by decide⟩
    have hget : (InternalNode.edges n).getLast? = some right := by simp [he]
    have hwhole : n.pairs = before (edges.map Node.pairs) (InternalNode.data n) ++ right.pairs := by
      refine (pairs_focus (List.append_nil (InternalNode.data n)).symm he hlen rfl).trans ?_
      simp
    rw [fixRightEdge, hget, Option.bind_some]
    split
    · rename_i hshort
      have hpos' : 0 < (InternalNode.data n).length := hpos (Nat.succ_pos h)
      obtain ⟨data, kv, hd⟩ := (List.eq_nil_or_concat' (InternalNode.data n)).resolve_left
        (List.length_pos_iff.mp hpos')
      obtain ⟨edges, left, rfl⟩ := (List.eq_nil_or_concat' edges).resolve_left
        (List.length_pos_iff.mp (hlen ▸ hpos'))
      have hlen' : edges.length = data.length := by simpa [hd] using hlen
      obtain ⟨left', kv', right', hsteal, hleft', hopen', hmin, hpairs⟩ :=
        bulkStealLeft_spec kv (hall left (by simp)) hopen (Nat.sub_pos_of_lt hshort)
          (Nat.add_sub_of_le (Nat.le_of_lt hshort))
      obtain ⟨right'', hfix, hsized, hlen₁, hpairs₁⟩ := ih hopen' fun _ => hmin ▸ by decide
      have hrest : (InternalNode.edges n).dropLast = edges ++ [left] := by rw [he, List.dropLast_concat]
      refine ⟨⟨data ++ [kv'], edges ++ [left', right'']⟩, ?_, ?_, ?_, ?_⟩
      · simp [hrest, hd, hsteal, hfix]
        rfl
      · have hcut : edges ++ [left', right''] = (edges ++ [left']) ++ [right''] := by simp
        rw [hcut]
        apply sized_of_open
        · rw [List.length_append]
          rwa [hd, List.length_append] at hle
        · simp [hlen']
        · intro e hmem
          rcases List.mem_append.mp hmem with hmem | hmem
          · exact hpacked e (by simp [hmem])
          · rw [List.mem_singleton.mp hmem]
            exact hleft'
        · exact ⟨hsized, by rw [hlen₁, hmin]; decide⟩
      · change (data ++ [kv']).length = (InternalNode.data n).length
        simp [hd]
      · have hpost : ([] : List (Node K V h)).length = ([] : List (K × V)).length := rfl
        have hnew := pairs_siblings left' right'' kv' hlen' hpost
        rw [hpairs₁, hpairs] at hnew
        have hold := pairs_siblings left right kv hlen' hpost
        have hedges : edges ++ [left, right] = InternalNode.edges n := by simp [he]
        rw [← hd, hedges] at hold
        exact hnew.trans hold.symm
    · rename_i hlong
      obtain ⟨right', hfix, hsized, hlen₁, hpairs₁⟩ := ih hopen fun _ => by
        have : 0 < MIN_LEN := by decide
        omega
      have hset : InternalNode.setEdge n ((InternalNode.edges n).length - 1) right' =
          ⟨InternalNode.data n, edges ++ [right']⟩ := by
        have hlast' : (InternalNode.edges n).length - 1 = edges.length := by simp [he]
        rw [hlast']
        exact setEdge_focus right' he
      refine ⟨⟨InternalNode.data n, edges ++ [right']⟩, ?_, ?_, rfl, ?_⟩
      · rw [hfix]
        exact congrArg some hset
      · refine sized_of_open hle hlen hpacked ⟨hsized, ?_⟩
        rw [hlen₁]
        have : SMALLEST ≤ MIN_LEN := by decide
        omega
      · rw [hwhole, ← hpairs₁]
        refine (pairs_focus (List.append_nil (InternalNode.data n)).symm rfl hlen rfl).trans ?_
        simp

section Order

variable [LinearOrder K] {e₁ e₂ : K → Option V}

/-- The second function, and where it has nothing the first. -/
def union (e₁ e₂ : K → Option V) : K → Option V := fun k => (e₂ k).or (e₁ k)

/-- The merged pairs are those of both lists, of equal keys the one on the right. -/
theorem mergeIter_lists {left right : List (K × V)} (hl : Lists e₁ left) (hr : Lists e₂ right) :
    Lists (union e₁ e₂) (mergeIter left right) := by
  refine ⟨mergeIter_sorted hl.sorted hr.sorted, ?_⟩
  have hmem : ∀ left right : List (K × V), Sorted left → Sorted right → ∀ k v,
      (k, v) ∈ mergeIter left right ↔ (k, v) ∈ right ∨ (k, v) ∈ left ∧ ∀ w, (k, w) ∉ right := by
    intro left right
    induction left, right using mergeIter.induct with
    | case1 right => simp [mergeIter]
    | case2 left hne =>
      rw [mergeIter]
      · simp
      · exact hne
    | case3 a left b right hcmp ih =>
      intro hsl hsr k v
      have hab : a.1 < b.1 := (cmp_eq_lt_iff _ _).mp hcmp
      have hb := (sorted_cons.mp hsr).1
      have hnot : ∀ w, (a.1, w) ∉ b :: right := by
        intro w hw
        rcases List.mem_cons.mp hw with rfl | hw
        · exact lt_irrefl _ hab
        · exact lt_irrefl _ (hab.trans (hb (a.1, w) hw))
      rw [mergeIter, hcmp]
      simp only
      rw [List.mem_cons, ih (sorted_cons.mp hsl).2 hsr, List.mem_cons (l := left)]
      constructor
      · rintro (rfl | h | ⟨h, hno⟩)
        · exact .inr ⟨.inl rfl, hnot⟩
        · exact .inl h
        · exact .inr ⟨.inr h, hno⟩
      · rintro (h | ⟨rfl | h, hno⟩)
        · exact .inr (.inl h)
        · exact .inl rfl
        · exact .inr (.inr ⟨h, hno⟩)
    | case4 a left b right hcmp ih =>
      intro hsl hsr k v
      have hba : b.1 < a.1 := (cmp_eq_gt_iff _ _).mp hcmp
      have ha := (sorted_cons.mp hsl).1
      have hnot : ∀ k v, (k, v) ∈ a :: left → k ≠ b.1 := by
        intro k v hw hk
        rcases List.mem_cons.mp hw with rfl | hw
        · exact absurd hba (by simp [hk])
        · exact absurd (hba.trans (ha _ hw)) (by simp [hk])
      rw [mergeIter, hcmp]
      simp only
      rw [List.mem_cons, ih hsl (sorted_cons.mp hsr).2, List.mem_cons (l := right)]
      constructor
      · rintro (h | h | ⟨h, hno⟩)
        · exact .inl (.inl h)
        · exact .inl (.inr h)
        · refine .inr ⟨h, fun w hw => ?_⟩
          rcases List.mem_cons.mp hw with hw | hw
          · exact hnot k v h (congrArg Prod.fst hw)
          · exact hno w hw
      · rintro ((h | h) | ⟨h, hno⟩)
        · exact .inl h
        · exact .inr (.inl h)
        · exact .inr (.inr ⟨h, fun w hw => hno w (List.mem_cons_of_mem _ hw)⟩)
    | case5 a left b right hcmp ih =>
      intro hsl hsr k v
      have hab : a.1 = b.1 := (cmp_eq_eq_iff _ _).mp hcmp
      have ha := (sorted_cons.mp hsl).1
      rw [mergeIter, hcmp]
      simp only
      rw [List.mem_cons, ih (sorted_cons.mp hsl).2 (sorted_cons.mp hsr).2, List.mem_cons (l := right)]
      constructor
      · rintro (h | h | ⟨h, hno⟩)
        · exact .inl (.inl h)
        · exact .inl (.inr h)
        · refine .inr ⟨List.mem_cons_of_mem _ h, fun w hw => ?_⟩
          rcases List.mem_cons.mp hw with hw | hw
          · have hk : k = b.1 := congrArg Prod.fst hw
            exact absurd (ha _ h) (by simp [hab, hk])
          · exact hno w hw
      · rintro ((h | h) | ⟨h, hno⟩)
        · exact .inl h
        · exact .inr (.inl h)
        · rcases List.mem_cons.mp h with h | h
          · have hk : k = b.1 := (congrArg Prod.fst h).trans hab
            exact absurd (List.mem_cons.mpr (.inl (by rw [hk]))) (hno b.2)
          · exact .inr (.inr ⟨h, fun w hw => hno w (List.mem_cons_of_mem _ hw)⟩)
  intro k v
  rw [hmem left right hl.sorted hr.sorted k v]
  simp only [hl.mem, hr.mem, union]
  cases h₂ : e₂ k with
  | none => simp
  | some w => simp

/-- Both maps of an `append`, which has an outcome whatever the allocator does. -/
theorem append_holds (ok : Nat → Bool) {m other : BTreeMap K V} (hm : Holds m e₁) (hother : Holds other e₂) :
    ∃ r m' other', m.append ok other = some (r, m', other') ∧ ((∀ n, ok n = true) → r = .ok ()) ∧
      (r = .ok () → Holds m' (union e₁ e₂) ∧ Holds other' fun _ => none) := by
  -- a map without pairs is the function without values
  have hempty : ∀ {m : BTreeMap K V} {e : K → Option V}, Holds m e → m.length = 0 → e = fun _ => none := by
    intro m e hm h0
    have hnil : m.pairs = [] := List.eq_nil_of_length_eq_zero (hm.length ▸ h0)
    funext k
    exact hm.lists.absent (by simp [hnil])
  by_cases h₂ : other.length = 0
  · obtain rfl := hempty hother h₂
    have hunion : union e₁ (fun _ => none) = e₁ := by
      funext k
      simp [union]
    exact ⟨.ok (), m, other, by rw [BTreeMap.append, if_pos h₂], fun _ => rfl,
      fun _ => ⟨hunion.symm ▸ hm, hother⟩⟩
  · by_cases h₁ : m.length = 0
    · obtain rfl := hempty hm h₁
      have hunion : union (fun _ => none) e₂ = e₂ := by
        funext k
        simp [union]
      exact ⟨.ok (), other, m, by rw [BTreeMap.append, if_neg h₂, if_pos h₁], fun _ => rfl,
        fun _ => ⟨hunion.symm ▸ hother, hm⟩⟩
    · have hleft : m.intoIter = some m.pairs := (iter_spec hm.good).mpr hm.length
      have hright : other.intoIter = some other.pairs := (iter_spec hother.good).mpr hother.length
      have hne : other.pairs ≠ [] := by
        intro hnil
        exact h₂ (hother.length.trans (by simp [hnil]))
      have hlists := mergeIter_lists hm.lists hother.lists
      obtain ⟨r, m₁, hr, hcount, hout⟩ :=
        fromSortedIter_spec ok (mergeIter m.pairs other.pairs) (mergeIter_ne_nil hne)
      rcases hout with ⟨rfl, -, hpairs⟩ | ⟨rfl, -⟩
      · obtain ⟨hopen, hpos⟩ := fromSortedIter_open hr
        obtain ⟨n, hfix, hsized, hlen, hsame⟩ := fixRightEdge_spec hopen hpos
        have hkeeps : (⟨.owned _ n, m₁.length⟩ : BTreeMap K V).pairs = mergeIter m.pairs other.pairs :=
          hsame.trans hpairs
        refine ⟨.ok (), ⟨.owned _ n, m₁.length⟩, .new, ?_, fun _ => rfl, fun _ => ⟨⟨?_, ?_, ?_⟩, new_holds⟩⟩
        · rw [BTreeMap.append, if_neg h₂, if_neg h₁, hleft, hright, Option.bind_some, Option.bind_some, hr,
            Option.bind_some]
          simp only [hfix, Option.map_some]
        · have hn : n.pairs = mergeIter m.pairs other.pairs := hkeeps
          refine good_owned hsized (hn ▸ hlists.sorted) (fun h => hlen ▸ hpos h) ?_
          rw [hcount, hpairs, hn]
        · rw [hkeeps]
          exact hlists
        · rw [hkeeps, ← hpairs]
          exact hcount
      · refine ⟨.error ⟨⟩, m₁, .new, ?_, fun hok => ?_, fun h => by cases h⟩
        · rw [BTreeMap.append, if_neg h₂, if_neg h₁, hleft, hright, Option.bind_some, Option.bind_some, hr]
          rfl
        · cases fromSortedIter_ok hok hr

/-- Every row of calls is answered as the function would, as long as the map gets the
memory it needs. -/
def Behaves (m : BTreeMap K V) (e : K → Option V) : Prop :=
  ∀ cs, Along (fun m c => (BTreeMap.call m c).map Prod.snd) Fits m cs →
    ∃ rs m' e', m.calls cs = some (rs, m') ∧ Answers e cs rs e'

theorem Holds.behaves {m : BTreeMap K V} {e : K → Option V} (hm : Holds m e) : Behaves m e := by
  intro cs hf
  obtain ⟨rs, m', e', hcalls, ha, -⟩ := calls_answers cs hm hf
  exact ⟨rs, m', e', hcalls, ha⟩

/-- One map appended to another after any calls on both: the two behave as the
union and as an empty map from then on, unless an allocation fails. -/
theorem append_behaves_as_union (cs₁ cs₂ : List (Call K V)) (ok : Nat → Bool)
    (hf₁ : Along (fun m c => (BTreeMap.call m c).map Prod.snd) Fits BTreeMap.new cs₁)
    (hf₂ : Along (fun m c => (BTreeMap.call m c).map Prod.snd) Fits BTreeMap.new cs₂) :
    ∃ rs₁ m₁ e₁ rs₂ m₂ e₂ r m' other',
      (BTreeMap.new : BTreeMap K V).calls cs₁ = some (rs₁, m₁) ∧ Answers (fun _ => none) cs₁ rs₁ e₁ ∧
      (BTreeMap.new : BTreeMap K V).calls cs₂ = some (rs₂, m₂) ∧ Answers (fun _ => none) cs₂ rs₂ e₂ ∧
      m₁.append ok m₂ = some (r, m', other') ∧ ((∀ n, ok n = true) → r = .ok ()) ∧
      (r = .ok () → Behaves m' (union e₁ e₂) ∧ Behaves other' fun _ => none) := by
  obtain ⟨rs₁, m₁, e₁, hcalls₁, ha₁, hm₁⟩ := calls_answers cs₁ new_holds hf₁
  obtain ⟨rs₂, m₂, e₂, hcalls₂, ha₂, hm₂⟩ := calls_answers cs₂ new_holds hf₂
  obtain ⟨r, m', other', happend, hok, hholds⟩ := append_holds ok hm₁ hm₂
  exact ⟨rs₁, m₁, e₁, rs₂, m₂, e₂, r, m', other', hcalls₁, ha₁, hcalls₂, ha₂, happend, hok,
    fun h => ⟨(hholds h).1.behaves, (hholds h).2.behaves⟩⟩

end Order

/-- Three pairs, one with the key that is left of the others. -/
def otherPairs : List (Call Nat Nat) :=
  [.insert 9 90 plenty, .insert 5 55 plenty, .insert 1 10 plenty, .get 5]

theorem otherPairs_fit :
    Along (fun m c => (BTreeMap.call m c).map Prod.snd) Fits (BTreeMap.new : BTreeMap Nat Nat) otherPairs :=
  plenty_fits (by grind [otherPairs])

theorem append_behaves_as_union_other_pairs :
    ∃ rs₁ m₁ e₁ rs₂ m₂ e₂ r m' other',
      (BTreeMap.new : BTreeMap Nat Nat).calls twoPairs = some (rs₁, m₁) ∧
      Answers (fun _ => none) twoPairs rs₁ e₁ ∧
      (BTreeMap.new : BTreeMap Nat Nat).calls otherPairs = some (rs₂, m₂) ∧
      Answers (fun _ => none) otherPairs rs₂ e₂ ∧
      m₁.append (fun _ => true) m₂ = some (r, m', other') ∧ ((∀ n : Nat, (fun _ => true) n = true) → r = .ok ()) ∧
      (r = .ok () → Behaves m' (union e₁ e₂) ∧ Behaves other' fun _ => none) :=
  append_behaves_as_union twoPairs otherPairs (fun _ => true) twoPairs_fit otherPairs_fit

end Crabos.BTree
