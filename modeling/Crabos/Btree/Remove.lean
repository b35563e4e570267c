import Crabos.Btree.Insert

/-!
# Removal from a subtree

Taking a pair out can leave a child with too few pairs. Merging it with a
sibling or stealing from one restores its size and keeps the pairs in order;
a merge takes a pair out of the parent, which then goes on one level up.
-/
namespace Crabos.BTree

open Crabos.Weave

variable {K V : Type}

theorem merge_spec {h : Nat} {left right : Node K V h} (kv : K × V) (hl : Sized left)
    (hr : Sized right) (hlen : left.len + right.len + 1 ≤ CAPACITY) :
    Sized (merge left kv right) ∧ (merge left kv right).len = left.len + right.len + 1 ∧
      (merge left kv right).pairs = left.pairs ++ kv :: right.pairs := by
  have hdata : ∀ l r : List (K × V), (l ++ kv :: r).length = l.length + r.length + 1 := by
    intro l r
    rw [List.length_append, List.length_cons]
    omega
  cases h with
  | zero => exact ⟨Nat.le_trans (Nat.le_of_eq (hdata left right)) hlen, hdata left right, rfl⟩
  | succ h =>
    refine ⟨⟨?_, ?_, ?_⟩, hdata _ _, ?_⟩
    · exact Nat.le_trans (Nat.le_of_eq (hdata _ _)) hlen
    · change (InternalNode.edges left ++ InternalNode.edges right).length =
        (InternalNode.data left ++ kv :: InternalNode.data right).length + 1
      rw [hdata, List.length_append, hl.2.1, hr.2.1]
      omega
    · intro x hx
      rcases List.mem_append.mp hx with hx | hx
      · exact hl.2.2 x hx
      · exact hr.2.2 x hx
    · change weave ((InternalNode.edges left ++ InternalNode.edges right).map Node.pairs)
        (InternalNode.data left ++ kv :: InternalNode.data right) = _
      rw [List.map_append, weave_split _ _ _ (by simpa using hl.2.1)]
      rfl

/-- A pair has moved between two siblings through the pair above them. -/
structure Moved {h : Nat} (left right : Node K V h) (kv : K × V)
    (s : Node K V h × (K × V) × Node K V h) : Prop where
  sized_left : Sized s.1
  sized_right : Sized s.2.2
  pairs : s.1.pairs ++ s.2.1 :: s.2.2.pairs = left.pairs ++ kv :: right.pairs

theorem stealLeft_spec {h : Nat} {left right : Node K V h} (kv : K × V) (hl : Sized left)
    (hr : Sized right) (hpos : 0 < left.len) (hroom : right.len < CAPACITY) :
    ∃ s, stealLeft left kv right = some s ∧ s.1.len + 1 = left.len ∧ s.2.2.len = right.len + 1 ∧
      Moved left right kv s := by
  have hne : Node.data left ≠ [] := List.ne_nil_of_length_pos hpos
  obtain ⟨init, last, hd⟩ := (List.eq_nil_or_concat' (Node.data left)).resolve_left hne
  cases h with
  | zero =>
    refine ⟨((init : List (K × V)), last, (kv :: Node.data right : List (K × V))), ?_, ?_, rfl, ?_, ?_, ?_⟩
    · rw [stealLeft, hd]
      simp
    · change init.length + 1 = (Node.data left).length
      rw [hd]
      simp
    · have hle : (Node.data left).length ≤ CAPACITY := hl
      rw [hd, List.length_append] at hle
      exact Nat.le_trans (Nat.le_add_right _ _) hle
    · exact hroom
    · change init ++ last :: kv :: Node.data right = Node.data left ++ kv :: Node.data right
      rw [hd]
      simp
  | succ h =>
    have hd' : InternalNode.data left = init ++ [last] := hd
    have hel := hl.2.1
    rw [hd', List.length_append, List.length_singleton] at hel
    have hene : InternalNode.edges left ≠ [] := List.ne_nil_of_length_pos (by omega)
    obtain ⟨einit, edge, he⟩ := (List.eq_nil_or_concat' (InternalNode.edges left)).resolve_left hene
    have heinit : einit.length = init.length + 1 := by
      rw [he, List.length_append, List.length_singleton] at hel
      omega
    refine ⟨(⟨init, einit⟩, last,
      ⟨kv :: InternalNode.data right, edge :: InternalNode.edges right⟩), ?_, ?_, rfl,
      ⟨?_, heinit, ?_⟩, ⟨hroom, ?_, ?_⟩, ?_⟩
    · rw [stealLeft, hd', he]
      simp
    · change init.length + 1 = (InternalNode.data left).length
      rw [hd']
      simp
    · have hle := hl.1
      rw [hd', List.length_append] at hle
      exact Nat.le_trans (Nat.le_add_right _ _) hle
    · intro x hx
      exact hl.2.2 x (he ▸ List.mem_append_left _ hx)
    · exact congrArg (· + 1) hr.2.1
    · intro x hx
      rcases List.mem_cons.mp hx with rfl | hx
      · exact hl.2.2 _ (by rw [he]; simp)
      · exact hr.2.2 x hx
    · change weave (einit.map Node.pairs) init ++ last ::
        weave ((edge :: InternalNode.edges right).map Node.pairs) (kv :: InternalNode.data right) = _
      rw [List.map_cons, weave, show left.pairs = weave ((InternalNode.edges left).map Node.pairs)
        (InternalNode.data left) from rfl, hd', he, List.map_append,
        weave_split _ _ _ (by simpa using heinit)]
      simp only [List.map_cons, List.map_nil, weave, List.append_assoc, List.cons_append]
      rfl

theorem stealRight_spec {h : Nat} {left right : Node K V h} (kv : K × V) (hl : Sized left)
    (hr : Sized right) (hpos : 0 < right.len) (hroom : left.len < CAPACITY) :
    ∃ s, stealRight left kv right = some s ∧ s.2.2.len + 1 = right.len ∧ s.1.len = left.len + 1 ∧
      Moved left right kv s := by
  have hne : Node.data right ≠ [] := List.ne_nil_of_length_pos hpos
  obtain ⟨first, rest, hd⟩ := List.exists_cons_of_ne_nil hne
  cases h with
  | zero =>
    refine ⟨((Node.data left ++ [kv] : List (K × V)), first, (rest : List (K × V))), ?_, ?_, ?_, ?_, ?_, ?_⟩
    · rw [stealRight, hd]
      rfl
    · change rest.length + 1 = (Node.data right).length
      rw [hd]
      rfl
    · exact List.length_append
    · change (Node.data left ++ [kv]).length ≤ CAPACITY
      rw [List.length_append]
      exact hroom
    · have hle : (Node.data right).length ≤ CAPACITY := hr
      rw [hd, List.length_cons] at hle
      exact Nat.le_of_succ_le hle
    · change Node.data left ++ [kv] ++ first :: rest = Node.data left ++ kv :: Node.data right
      rw [hd]
      simp
  | succ h =>
    have hd' : InternalNode.data right = first :: rest := hd
    have her := hr.2.1
    rw [hd', List.length_cons] at her
    have hene : InternalNode.edges right ≠ [] := List.ne_nil_of_length_pos (by omega)
    obtain ⟨edge, erest, he⟩ := List.exists_cons_of_ne_nil hene
    have herest : erest.length = rest.length + 1 := by
      rw [he, List.length_cons] at her
      omega
    refine ⟨(⟨InternalNode.data left ++ [kv], InternalNode.edges left ++ [edge]⟩, first,
      ⟨rest, erest⟩), ?_, ?_, ?_, ⟨?_, ?_, ?_⟩, ⟨?_, herest, ?_⟩, ?_⟩
    · rw [stealRight, hd', he]
      rfl
    · change rest.length + 1 = (InternalNode.data right).length
      rw [hd']
      rfl
    · exact List.length_append
    · change (InternalNode.data left ++ [kv]).length ≤ CAPACITY
      rw [List.length_append]
      exact hroom
    · change (InternalNode.edges left ++ [edge]).length = (InternalNode.data left ++ [kv]).length + 1
      rw [List.length_append, List.length_append, hl.2.1]
      rfl
    · intro x hx
      rcases List.mem_append.mp hx with hx | hx
      · exact hl.2.2 x hx
      · rw [List.mem_singleton.mp hx]
        exact hr.2.2 _ (by rw [he]; simp)
    · have hle := hr.1
      rw [hd', List.length_cons] at hle
      exact Nat.le_of_succ_le hle
    · intro x hx
      exact hr.2.2 x (he ▸ List.mem_cons_of_mem _ hx)
    · change weave ((InternalNode.edges left ++ [edge]).map Node.pairs) (InternalNode.data left ++ [kv]) ++
        first :: weave (erest.map Node.pairs) rest = _
      rw [List.map_append, weave_split _ _ _ (by simpa using hl.2.1),
        show right.pairs = weave ((InternalNode.edges right).map Node.pairs)
        (InternalNode.data right) from rfl, hd', he]
      simp only [List.map_cons, List.map_nil, weave, List.append_assoc, List.cons_append]
      rfl

/-- What the loop knows of a node that lost a pair somewhere below. -/
def Shrunk {h : Nat} (n n' : Node K V h) (status : Underflow) : Prop :=
  (status = .done ∧ n'.len = n.len) ∨
  (status = .goOn ∧ n'.len + 1 = n.len ∧ (0 < h → 0 < n'.len)) ∨
  (status = .popLevel ∧ n'.len = 0 ∧ n.len = 1 ∧ 0 < h)

theorem shrunk_of_len {h : Nat} {n m n' : Node K V h} {status : Underflow} (hl : m.len = n.len)
    (hs : Shrunk m n' status) : Shrunk n n' status := by
  unfold Shrunk at hs ⊢
  rwa [← hl]

/-- Two siblings, one of them short, are merged or one steals from the other. -/
theorem rebalance_spec {h : Nat} {pre post : List (K × V)} {epre epost : List (Node K V h)}
    {left right : Node K V h} (kv : K × V) (isLeft : Bool)
    (h₁ : epre.length = pre.length) (h₂ : epost.length = post.length)
    (hcap : (pre ++ kv :: post).length ≤ CAPACITY) (hl : Sized left) (hr : Sized right)
    (hlen : SMALLEST ≤ left.len + 1 ∧ SMALLEST ≤ right.len + 1)
    (hshort : (if isLeft then right.len else left.len) < CAPACITY / 2)
    (hall : ∀ x ∈ epre ++ epost, Sized x ∧ SMALLEST ≤ x.len) :
    ∃ n' status, rebalance ⟨pre ++ kv :: post, epre ++ left :: right :: epost⟩ pre.length isLeft =
        some (n', status) ∧ Sized (h := h + 1) n' ∧
      Shrunk (h := h + 1) ⟨pre ++ kv :: post, epre ++ left :: right :: epost⟩ n' status ∧
      Node.pairs (h := h + 1) n' =
        Node.pairs (h := h + 1) ⟨pre ++ kv :: post, epre ++ left :: right :: epost⟩ := by
  have hkv : (pre ++ kv :: post)[pre.length]? = some kv := by simp
  have hleft : (epre ++ left :: right :: epost)[pre.length]? = some left := by simp [← h₁]
  have hright : (epre ++ left :: right :: epost)[pre.length + 1]? = some right := by simp [← h₁]
  have hpairs := pairs_siblings left right kv h₁ h₂
  have hlens : (pre ++ kv :: post).length = pre.length + post.length + 1 := by
    rw [List.length_append, List.length_cons]
    omega
  rw [rebalance]
  simp only [hkv, hleft, hright, Option.bind_some]
  split
  · rename_i hfit
    obtain ⟨hs, hm, hp⟩ := merge_spec kv hl hr hfit
    have hdata : (pre ++ kv :: post).eraseIdx pre.length = pre ++ post := by
      rw [List.eraseIdx_append_of_length_le (Nat.le_refl _)]
      simp
    have hedges : ((epre ++ left :: right :: epost).set pre.length (merge left kv right)).eraseIdx
        (pre.length + 1) = epre ++ merge left kv right :: epost := by
      rw [← h₁, List.set_append_right _ _ (Nat.le_refl _),
        List.eraseIdx_append_of_length_le (by omega)]
      simp
    refine ⟨_, _, rfl, ?_, ?_, ?_⟩
    · rw [hdata, hedges]
      refine ⟨?_, ?_, ?_⟩
      · change (pre ++ post).length ≤ CAPACITY
        rw [List.length_append]
        omega
      · change (epre ++ merge left kv right :: epost).length = (pre ++ post).length + 1
        simp only [List.length_append, List.length_cons]
        omega
      · intro x hx
        rcases List.mem_append.mp hx with hx | hx
        · exact hall x (List.mem_append_left _ hx)
        · rcases List.mem_cons.mp hx with rfl | hx
          · exact ⟨hs, by simp only [SMALLEST, CAPACITY, B] at *; omega⟩
          · exact hall x (List.mem_append_right _ hx)
    · rw [hdata, hedges, hlens]
      have hn : Node.len (h := h + 1) ⟨pre ++ kv :: post, epre ++ left :: right :: epost⟩ =
          pre.length + post.length + 1 := hlens
      have hn' : Node.len (h := h + 1) ⟨pre ++ post, epre ++ merge left kv right :: epost⟩ =
          pre.length + post.length := List.length_append
      split
      · exact .inr (.inr ⟨rfl, by omega, by omega, by omega⟩)
      · exact .inr (.inl ⟨rfl, by omega, fun _ => by omega⟩)
    · rw [hdata, hedges, hpairs, pairs_focus rfl rfl h₁ h₂, hp]
  · rename_i hfull
    have hsteal : ∃ s, (if isLeft then stealLeft left kv right else stealRight left kv right) = some s ∧
        SMALLEST ≤ s.1.len ∧ SMALLEST ≤ s.2.2.len ∧ Moved left right kv s := by
      cases isLeft with
      | true =>
        simp only [if_true] at hshort ⊢
        obtain ⟨s, hs, h₃, h₄, hm⟩ := stealLeft_spec kv hl hr
          (by simp only [CAPACITY, B] at *; omega) (by simp only [CAPACITY, B] at *; omega)
        exact ⟨s, hs, by simp only [SMALLEST, CAPACITY, B] at *; omega, by omega, hm⟩
      | false =>
        simp only [Bool.false_eq_true, if_false] at hshort ⊢
        obtain ⟨s, hs, h₃, h₄, hm⟩ := stealRight_spec kv hl hr
          (by simp only [CAPACITY, B] at *; omega) (by simp only [CAPACITY, B] at *; omega)
        exact ⟨s, hs, by omega, by simp only [SMALLEST, CAPACITY, B] at *; omega, hm⟩
    obtain ⟨⟨left', kv', right'⟩, hs, hsl, hsr, hm⟩ := hsteal
    have hdata : (pre ++ kv :: post).set pre.length kv' = pre ++ kv' :: post := by simp
    have hedges : ((epre ++ left :: right :: epost).set pre.length left').set (pre.length + 1) right' =
        epre ++ left' :: right' :: epost := by
      rw [← h₁, List.set_append_right _ _ (Nat.le_refl _), List.set_append_right _ _ (by omega)]
      simp
    rw [hs, Option.map_some]
    refine ⟨_, _, rfl, ?_, ?_, ?_⟩
    · rw [hdata, hedges]
      refine ⟨?_, ?_, ?_⟩
      · change (pre ++ kv' :: post).length ≤ CAPACITY
        simpa using hcap
      · change (epre ++ left' :: right' :: epost).length = (pre ++ kv' :: post).length + 1
        simp only [List.length_append, List.length_cons]
        omega
      · intro x hx
        rcases List.mem_append.mp hx with hx | hx
        · exact hall x (List.mem_append_left _ hx)
        · rcases List.mem_cons.mp hx with rfl | hx
          · exact ⟨hm.sized_left, hsl⟩
          · rcases List.mem_cons.mp hx with rfl | hx
            · exact ⟨hm.sized_right, hsr⟩
            · exact hall x (List.mem_append_right _ hx)
    · refine .inl ⟨rfl, ?_⟩
      rw [hdata]
      change (pre ++ kv' :: post).length = (pre ++ kv :: post).length
      simp
    · rw [hdata, hedges, hpairs, pairs_siblings left' right' kv' h₁ h₂]
      exact congrArg (_ ++ · ++ _) hm.pairs

theorem setKv_setEdge_focus {N : Type} {n : InternalNode K V N} {pre post : List (K × V)}
    {epre epost : List N} {old : K × V} {l e : N} (kv : K × V) (e' : N)
    (hd : n.data = pre ++ old :: post) (he : n.edges = epre ++ l :: e :: epost)
    (h₁ : epre.length = pre.length) :
    (n.setKv pre.length kv).setEdge (pre.length + 1) e' =
      ⟨pre ++ kv :: post, (epre ++ [l]) ++ e' :: epost⟩ := by
  have hdata : (pre ++ old :: post).set pre.length kv = pre ++ kv :: post := by simp
  have hedges : (epre ++ l :: e :: epost).set (pre.length + 1) e' = (epre ++ [l]) ++ e' :: epost := by
    rw [← h₁, List.set_append_right _ _ (Nat.le_add_right _ _)]
    simp
  rw [InternalNode.setKv, InternalNode.setEdge, hd, he, hdata, hedges]

/-- One turn of the loop, for the child `e'` that came out of `e`. -/
theorem handleUnderfull_spec {h : Nat} {data : List (K × V)} {epre epost : List (Node K V h)}
    {e e' : Node K V h} {status : Underflow} (hcap : data.length ≤ CAPACITY) (hpos : 0 < data.length)
    (hlen : epre.length + epost.length = data.length)
    (hall : ∀ x ∈ epre ++ epost, Sized x ∧ SMALLEST ≤ x.len) (he : SMALLEST ≤ e.len)
    (he' : Sized e') (hshr : Shrunk e e' status) :
    ∃ n' status', handleUnderfull ⟨data, epre ++ e' :: epost⟩ epre.length status = some (n', status') ∧
      Sized (h := h + 1) n' ∧ Shrunk (h := h + 1) ⟨data, epre ++ e' :: epost⟩ n' status' ∧
      Node.pairs (h := h + 1) n' = Node.pairs (h := h + 1) ⟨data, epre ++ e' :: epost⟩ := by
  have hkeep : SMALLEST ≤ e'.len → Sized (h := h + 1) ⟨data, epre ++ e' :: epost⟩ := by
    intro hs
    refine ⟨hcap, ?_, ?_⟩
    · change (epre ++ e' :: epost).length = data.length + 1
      rw [List.length_append, List.length_cons]
      omega
    · intro x hx
      rcases List.mem_append.mp hx with hx | hx
      · exact hall x (List.mem_append_left _ hx)
      · rcases List.mem_cons.mp hx with rfl | hx
        · exact ⟨he', hs⟩
        · exact hall x (List.mem_append_right _ hx)
  have hget : (epre ++ e' :: epost)[epre.length]? = some e' := by simp
  rcases hshr with ⟨rfl, hl⟩ | ⟨rfl, hl, -⟩ | ⟨-, -, hl, -⟩
  · exact ⟨_, _, rfl, hkeep (hl ▸ he), .inl ⟨rfl, rfl⟩, rfl⟩
  · rw [handleUnderfull]
    simp only [hget, Option.bind_some]
    split
    · rename_i hshort
      split
      · rename_i hidx
        obtain ⟨einit, left, rfl⟩ := (List.eq_nil_or_concat' epre).resolve_left
          (List.ne_nil_of_length_pos hidx)
        obtain ⟨pre, kv, post, rfl, hpre⟩ := exists_split (l := data) (i := einit.length) (by
          rw [List.length_append, List.length_singleton] at hlen
          omega)
        have hpost : epost.length = post.length := by
          simp only [List.length_append, List.length_cons, List.length_nil] at hlen
          omega
        have hleft := hall left (by simp)
        obtain ⟨n', status', hr, hs, hsh, hp⟩ := rebalance_spec kv true hpre.symm hpost hcap
          hleft.1 he' ⟨by omega, by omega⟩ hshort (by
            intro x hx
            refine hall x ?_
            rcases List.mem_append.mp hx with hx | hx
            · exact List.mem_append_left _ (List.mem_append_left _ hx)
            · exact List.mem_append_right _ hx)
        have hi : (einit ++ [left]).length - 1 = pre.length := by
          rw [List.length_append, List.length_singleton]
          omega
        rw [hi]
        simp only [List.append_assoc, List.cons_append, List.nil_append]
        exact ⟨n', status', hr, hs, hsh, hp⟩
      · rename_i hidx
        have hnil : epre = [] := List.eq_nil_of_length_eq_zero (by omega)
        subst hnil
        rw [if_pos (show ([] : List (Node K V h)).length < data.length from hpos)]
        cases data with
        | nil => cases hpos
        | cons kv post =>
          cases epost with
          | nil => cases hlen
          | cons right epost =>
            have hright := hall right (by simp)
            have hnil : ([] : List (Node K V h)).length = ([] : List (K × V)).length := rfl
            exact rebalance_spec kv false hnil (by simpa using hlen) hcap he' hright.1
              ⟨by omega, by omega⟩ hshort fun x hx => hall x (List.mem_cons_of_mem _ hx)
    · rename_i hlong
      refine ⟨_, _, rfl, hkeep ?_, .inl ⟨rfl, rfl⟩, rfl⟩
      simp only [SMALLEST, CAPACITY, B] at *
      omega
  · simp only [SMALLEST, CAPACITY, B] at he
    omega

/-- The first pair of a subtree comes out, and the rest stays in order. -/
theorem removeFirst_spec {h : Nat} (n : Node K V h) (hn : Sized n) (hpos : 0 < n.len) :
    ∃ kv n' status, removeFirst n = some (kv, n', status) ∧ Sized n' ∧ Shrunk n n' status ∧
      n.pairs = kv :: n'.pairs := by
  induction h with
  | zero =>
    obtain ⟨kv, rest, hd⟩ := List.exists_cons_of_ne_nil (List.ne_nil_of_length_pos hpos)
    refine ⟨kv, (rest : List (K × V)), .goOn, by rw [removeFirst, hd]; rfl, ?_, ?_, hd⟩
    · have hle : (Node.data n).length ≤ CAPACITY := hn
      rw [hd, List.length_cons] at hle
      exact Nat.le_of_succ_le hle
    · refine .inr (.inl ⟨rfl, ?_, fun h => absurd h (Nat.lt_irrefl 0)⟩)
      change rest.length + 1 = (Node.data n).length
      rw [hd, List.length_cons]
  | succ h ih =>
    obtain ⟨epre, e, epost, he, h₁, h₂⟩ := edges_focus hn.2.1 (List.nil_append _).symm
    have hnil : epre = [] := List.eq_nil_of_length_eq_zero h₁
    subst hnil
    have hgood := hn.2.2 e (by rw [he]; simp)
    obtain ⟨kv, e', status, hr, hs, hsh, hp⟩ := ih e hgood.1 (Nat.lt_of_lt_of_le (by decide) hgood.2)
    have hlen : ([] : List (Node K V h)).length + epost.length = (InternalNode.data n).length := by
      simpa using h₂
    obtain ⟨n', status', hu, hs', hsh', hp'⟩ := handleUnderfull_spec hn.1 hpos hlen
      (fun x hx => hn.2.2 x (he ▸ List.mem_cons_of_mem _ hx)) hgood.2 hs hsh
    have hget : (InternalNode.edges n)[0]? = some e := by rw [he]; rfl
    have hu' : handleUnderfull (InternalNode.setEdge n 0 e') 0 status = some (n', status') := by
      rw [show InternalNode.setEdge n 0 e' = ⟨InternalNode.data n, [] ++ e' :: epost⟩ from
        setEdge_focus e' he]
      exact hu
    refine ⟨kv, n', status', ?_, hs', hsh', ?_⟩
    · rw [removeFirst, hget, Option.bind_some, hr, Option.bind_some]
      simp only
      rw [hu']
      rfl
    · have hn₁ : n.pairs = before [] [] ++ e.pairs ++
          after (InternalNode.data n) (epost.map Node.pairs) :=
        pairs_focus (List.nil_append _).symm he rfl h₂
      have hn₂ := pairs_focus (e := e') (List.nil_append _).symm rfl h₁ h₂
      refine hn₁.trans (Eq.trans ?_ (congrArg (kv :: ·) (hp'.trans hn₂).symm))
      rw [hp]
      rfl

section Order

variable [LinearOrder K]

/-- The outcome of a removal: nothing was there, or the pair is gone. -/
def RemoveSpec (key : K) {h : Nat} (n : Node K V h) :
    Option ((K × V) × Node K V h × Underflow) → Prop
  | none => ∀ v, (key, v) ∉ n.pairs
  | some (old, n', status) => Sized n' ∧ Shrunk n n' status ∧ old.1 = key ∧
    ∃ xs ys, n.pairs = xs ++ old :: ys ∧ n'.pairs = xs ++ ys

theorem not_mem_of_sides {key : K} {l m r : List (K × V)} (hl : ∀ a ∈ l, a.1 < key)
    (hm : ∀ v, (key, v) ∉ m) (hr : ∀ a ∈ r, key < a.1) (v : V) : (key, v) ∉ l ++ m ++ r := by
  intro hx
  rcases List.mem_append.mp hx with hx | hx
  · rcases List.mem_append.mp hx with hx | hx
    · exact lt_irrefl key (hl _ hx)
    · exact hm v hx
  · exact lt_irrefl key (hr _ hx)

theorem removeNode_spec (key : K) {h : Nat} (n : Node K V h) (hn : Sized n) (hs : Sorted n.pairs)
    (hpos : 0 < h → 0 < n.len) :
    ∃ r, removeNode key n = some r ∧ RemoveSpec key n r := by
  induction h with
  | zero =>
    have hs' : Sorted (Node.data n) := hs
    rw [removeNode]
    split
    · rename_i i hsearch
      obtain ⟨pre, v, post, hd, rfl, -⟩ := searchLinear_true hsearch
      have hget : (Node.data n)[pre.length]? = some (key, v) := by rw [hd]; simp
      have herase : (Node.data n).eraseIdx pre.length = pre ++ post := by
        rw [hd, List.eraseIdx_append_of_length_le (Nat.le_refl _)]
        simp
      have hlen : (Node.data n).length = pre.length + post.length + 1 := by
        rw [hd, List.length_append, List.length_cons]
        omega
      rw [hget, herase]
      refine ⟨_, rfl, ?_, .inr (.inl ⟨rfl, ?_, fun h => absurd h (Nat.lt_irrefl 0)⟩), rfl, pre, post,
        hd, rfl⟩
      · have hle : (Node.data n).length ≤ CAPACITY := hn
        change (pre ++ post).length ≤ CAPACITY
        rw [List.length_append]
        omega
      · change (pre ++ post).length + 1 = (Node.data n).length
        rw [List.length_append]
        omega
    · rename_i i hsearch
      obtain ⟨pre, post, hd, rfl, hpre, hpost⟩ := searchLinear_false hs' hsearch
      refine ⟨none, rfl, ?_⟩
      intro v hx
      rw [show n.pairs = pre ++ [] ++ post by rw [List.append_nil]; exact hd] at hx
      exact not_mem_of_sides hpre (by simp) hpost v hx
  | succ h ih =>
    have hsd : Sorted (InternalNode.data n) := hs.sublist (sublist_weave (by simpa using hn.2.1))
    have hlen0 : 0 < (InternalNode.data n).length := hpos (Nat.succ_pos h)
    rw [removeNode]
    split
    · rename_i i hsearch
      obtain ⟨pre, v, post, hd, rfl, -⟩ := searchLinear_true hsearch
      obtain ⟨epre, l, epost, he, h₁, h₂⟩ := edges_focus hn.2.1 hd
      cases epost with
      | nil => cases h₂
      | cons e epost =>
        have h₂' : epost.length = post.length := by simpa using h₂
        have hgood := hn.2.2 e (by rw [he]; simp)
        obtain ⟨kv, e', status, hr, hse, hsh, hp⟩ :=
          removeFirst_spec e hgood.1 (Nat.lt_of_lt_of_le (by decide) hgood.2)
        have hget : (InternalNode.data n)[pre.length]? = some (key, v) := by rw [hd]; simp
        have hgete : (InternalNode.edges n)[pre.length + 1]? = some e := by rw [he, ← h₁]; simp
        have hnew : (InternalNode.setKv n pre.length kv).setEdge (pre.length + 1) e' =
            ⟨pre ++ kv :: post, (epre ++ [l]) ++ e' :: epost⟩ := setKv_setEdge_focus kv e' hd he h₁
        have hlen : (pre ++ kv :: post).length = (InternalNode.data n).length := by rw [hd]; simp
        have hall : ∀ x ∈ epre ++ [l] ++ epost, Sized x ∧ SMALLEST ≤ x.len := by
          intro x hx
          refine hn.2.2 x ?_
          rw [he]
          simp only [List.mem_append, List.mem_cons, List.not_mem_nil, or_false] at hx ⊢
          tauto
        obtain ⟨n', status', hu, hs', hsh', hp'⟩ := handleUnderfull_spec (hlen ▸ hn.1) (hlen ▸ hlen0)
          (by simp only [List.length_append, List.length_cons, List.length_nil]; omega)
          hall hgood.2 hse hsh
        rw [List.length_append, List.length_singleton, h₁] at hu
        refine ⟨some ((key, v), n', status'), ?_, hs',
          shrunk_of_len (n := n) (m := ⟨pre ++ kv :: post, (epre ++ [l]) ++ e' :: epost⟩) hlen hsh', rfl,
          before (epre.map Node.pairs) pre ++ l.pairs,
          e.pairs ++ after post (epost.map Node.pairs), ?_, ?_⟩
        · rw [hget, Option.bind_some, hgete, Option.bind_some, hr, Option.bind_some]
          simp only
          rw [hnew, hu]
          rfl
        · refine (pairs_focus hd he h₁ h₂).trans ?_
          rw [List.map_cons, after_cons]
          rfl
        · refine hp'.trans ?_
          rw [List.append_assoc, List.singleton_append, pairs_siblings l e' kv h₁ h₂', hp]
          simp
    · rename_i i hsearch
      obtain ⟨pre, post, hd, rfl, hpre, hpost⟩ := searchLinear_false hsd hsearch
      obtain ⟨epre, e, epost, he, h₁, h₂⟩ := edges_focus hn.2.1 hd
      have hpairs : n.pairs = before (epre.map Node.pairs) pre ++ e.pairs ++
          after post (epost.map Node.pairs) := pairs_focus hd he h₁ h₂
      have hside := hpairs ▸ hs
      obtain ⟨hleft, hright⟩ := sides_of_search hside hpre hpost
      have hgood := hn.2.2 e (by rw [he]; simp)
      have hget : (InternalNode.edges n)[pre.length]? = some e := by rw [he, ← h₁]; simp
      obtain ⟨r, hr, hspec⟩ := ih e hgood.1
        (List.pairwise_append.mp (List.pairwise_append.mp hside).1).2.1
        fun _ => Nat.lt_of_lt_of_le (by decide) hgood.2
      rw [hget, Option.bind_some, hr, Option.bind_some]
      match r, hspec with
      | none, hspec =>
        refine ⟨none, rfl, ?_⟩
        intro v
        rw [hpairs]
        exact not_mem_of_sides hleft hspec hright v
      | some (old, e', status), ⟨hse, hsh, hold, xs, ys, hx, hy⟩ =>
        have hlen : (InternalNode.data n).length = pre.length + post.length := by
          rw [hd, List.length_append]
        have hlen' : epre.length + epost.length = (InternalNode.data n).length := by omega
        have hall : ∀ x ∈ epre ++ epost, Sized x ∧ SMALLEST ≤ x.len := by
          intro x hx
          refine hn.2.2 x ?_
          rw [he]
          simp only [List.mem_append, List.mem_cons] at hx ⊢
          tauto
        obtain ⟨n', status', hu, hs', hsh', hp'⟩ := handleUnderfull_spec hn.1 hlen0 hlen' hall
          hgood.2 hse hsh
        rw [h₁] at hu
        have hset : InternalNode.setEdge n pre.length e' =
            ⟨InternalNode.data n, epre ++ e' :: epost⟩ := by
          rw [← h₁]
          exact setEdge_focus e' he
        refine ⟨some (old, n', status'), ?_, hs', shrunk_of_len rfl hsh', hold,
          before (epre.map Node.pairs) pre ++ xs, ys ++ after post (epost.map Node.pairs), ?_, ?_⟩
        · simp only
          rw [hset, hu]
          rfl
        · rw [hpairs, hx]
          simp
        · refine hp'.trans ((pairs_focus hd rfl h₁ h₂).trans ?_)
          rw [hy]
          simp

end Order

end Crabos.BTree
