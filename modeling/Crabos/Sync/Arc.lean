import Mathlib
import Crabos.Mem.KallocRun

/-!
# Reference-counted objects (`kernel/src/sync/arc.rs`)

`Arc::new` asks the heap for a block that holds the count and the object.
`Drop` frees that block with the layout of the pointer in the `Arc`, not with
the layout of the object behind it. A log lists the dropped objects and every
block the heap handed out, with its class.
-/
namespace Crabos.Arc

open Crabos.Linked Crabos.Words Crabos.Run Crabos.Kalloc

def roundUp (n a : Nat) : Nat := (n + a - 1) / a * a

/-- The layout of `ArcObject<T>`: the count, then the object at the next
multiple of its alignment, padded to the alignment of the whole. -/
def arcObjectLayout (t : Layout) : Layout where
  size := roundUp (roundUp 8 t.align + t.size) (max 8 t.align)
  align := max 8 t.align
  align_pow2 := by
    obtain ⟨k, hk⟩ := t.align_pow2
    rcases Nat.le_total 8 t.align with h | h
    · exact ⟨k, by rw [Nat.max_eq_right h, hk]⟩
    · exact ⟨3, (Nat.max_eq_left h).trans (by decide)⟩

/-- `Layout::for_value(&self.ptr)`: a thin pointer, or a wide one when `T` is unsized. -/
def pointerLayout (wide : Bool) : Layout := ⟨if wide then 16 else 8, 8, 3, rfl⟩

structure Object where
  block : Block
  refCount : Nat
  deriving DecidableEq

/-- `arcs` has one entry for each `Arc` that exists, naming its object. -/
structure State where
  k : Kalloc.State
  objects : Nat → Option Object
  arcs : List Nat
  next : Nat
  drops : List Nat
  handed : List (Fin 9 × Nat)

inductive Op where
  | new (t : Layout) (page : Option Nat)
  | clone (id : Nat)
  | drop (id : Nat) (wide : Bool)

def initial (mem : Mem) : State := ⟨Kalloc.initial mem, fun _ => none, [], 0, [], []⟩

def new (s : State) (t : Layout) (page : Option Nat) : Option State :=
  match allocLayout s.k.heap (arcObjectLayout t) page, classOf s.k.heap (arcObjectLayout t) with
  | some (.ok p, h), some i =>
    some { s with
      k := ⟨h, ⟨p, i, arcObjectLayout t⟩ :: s.k.live, grown s.k.heap i page s.k.pages⟩
      objects := Function.update s.objects s.next (some ⟨⟨p, i, arcObjectLayout t⟩, 1⟩)
      arcs := s.next :: s.arcs
      next := s.next + 1
      handed := (i, p) :: s.handed }
  | some (.error _, h), _ => some { s with k := ⟨h, s.k.live, s.k.pages⟩ }
  | _, _ => none

def clone (s : State) (id : Nat) : Option State :=
  (s.objects id).map fun o =>
    { s with
      objects := Function.update s.objects id (some { o with refCount := o.refCount + 1 })
      arcs := id :: s.arcs }

/-- `Drop for Arc`. A count that was already zero is a panic. -/
def drop (s : State) (id : Nat) (wide : Bool) : Option State :=
  (s.objects id).bind fun o =>
    if o.refCount = 0 then none
    else if o.refCount = 1 then
      (freeLayout s.k.heap (pointerLayout wide) o.block.ptr).map fun h =>
        { s with
          k := ⟨h, s.k.live.erase o.block, s.k.pages⟩
          objects := Function.update s.objects id none
          arcs := s.arcs.erase id
          drops := id :: s.drops }
    else
      some { s with
        objects := Function.update s.objects id (some { o with refCount := o.refCount - 1 })
        arcs := s.arcs.erase id }

/-- Only an `Arc` that exists can be cloned or dropped. -/
def step (s : State) : Op → Option State
  | .new t page =>
    if (arcObjectLayout t).size ≤ PAGE_SIZE ∧ (arcObjectLayout t).align ≤ PAGE_SIZE ∧
        FreshPage s.k.pages page then
      new s t page
    else none
  | .clone id => if id ∈ s.arcs then clone s id else none
  | .drop id wide => if id ∈ s.arcs then drop s id wide else none

/-- Objects are dropped with their last `Arc`, and blocks stay with their class. -/
structure Balanced (s : State) : Prop where
  dropped : ∀ id, id < s.next → s.drops.count id = if id ∈ s.arcs then 0 else 1
  lists : ∃ free : Fin 9 → List Nat,
    (∀ i, Chain (link s.k.heap.mem) (s.k.heap.classes i).free (free i)) ∧
    (∀ i, ∀ p ∈ free i, ∃ q, (q, i) ∈ s.k.pages ∧ Slot q i p) ∧
    (∀ b ∈ s.handed, b.2 ∈ free b.1 ∨ ∃ id ∈ s.arcs, ∃ o, s.objects id = some o ∧ o.block.slot = b) ∧
    (s.arcs = [] → ∀ b ∈ s.handed, b.2 ∈ free b.1)

/-- If this is the last count of the object, it fits a class of sixteen bytes. -/
def SmallLast : Option Object → Prop
  | some o => o.refCount = 1 → o.block.layout.size ≤ 16 ∧ o.block.layout.align ≤ 16
  | none => True

instance : (o : Option Object) → Decidable (SmallLast o)
  | some o =>
    inferInstanceAs
      (Decidable (o.refCount = 1 → o.block.layout.size ≤ 16 ∧ o.block.layout.align ≤ 16))
  | none => inferInstanceAs (Decidable True)

/-- When this step drops a last `Arc`, its object fits a class of sixteen bytes. -/
def SmallDrop (s : State) : Op → Prop
  | .drop id _ => SmallLast (s.objects id)
  | _ => True

instance (s : State) : (op : Op) → Decidable (SmallDrop s op)
  | .new _ _ => inferInstanceAs (Decidable True)
  | .clone _ => inferInstanceAs (Decidable True)
  | .drop id _ => inferInstanceAs (Decidable (SmallLast (s.objects id)))

structure Inv (s : State) : Prop where
  heap : ∃ free, Good s.k free ∧ ∀ b ∈ s.handed, b.2 ∈ free b.1 ∨ b ∈ s.k.live.map Block.slot
  live : ∀ id o, s.objects id = some o → o.block ∈ s.k.live
  object : ∀ b ∈ s.k.live, ∃ id o, s.objects id = some o ∧ o.block = b
  inj : ∀ id o id' o', s.objects id = some o → s.objects id' = some o' → o.block = o'.block → id = id'
  count : ∀ id o, s.objects id = some o → o.refCount = s.arcs.count id ∧ 0 < o.refCount
  gone : ∀ id, s.objects id = none → id ∉ s.arcs
  drops : ∀ id, id < s.next → s.drops.count id = if (s.objects id).isSome then 0 else 1
  young : ∀ id, s.next ≤ id → s.objects id = none ∧ s.drops.count id = 0

theorem initial_inv (mem : Mem) : Inv (initial mem) where
  heap := ⟨_, initial_good mem, by simp [initial]⟩
  live := by simp [initial]
  object := by simp [initial, Kalloc.initial]
  inj := by simp [initial]
  count := by simp [initial]
  gone := by simp [initial]
  drops := by simp [initial]
  young := by simp [initial]

theorem arcs_iff {s : State} (hi : Inv s) (id : Nat) : id ∈ s.arcs ↔ (s.objects id).isSome := by
  cases ho : s.objects id with
  | none => simpa using hi.gone id ho
  | some o =>
    obtain ⟨hc, hpos⟩ := hi.count id o ho
    rw [hc] at hpos
    simpa using List.count_pos_iff.mp hpos

theorem balanced_of_inv {s : State} (hi : Inv s) : Balanced s := by
  obtain ⟨free, hg, hh⟩ := hi.heap
  have hhanded : ∀ b ∈ s.handed,
      b.2 ∈ free b.1 ∨ ∃ id ∈ s.arcs, ∃ o, s.objects id = some o ∧ o.block.slot = b := by
    intro b hb
    rcases hh b hb with h | h
    · exact .inl h
    · obtain ⟨c, hc, rfl⟩ := List.mem_map.mp h
      obtain ⟨id, o, ho, rfl⟩ := hi.object c hc
      exact .inr ⟨id, (arcs_iff hi id).mpr (by simp [ho]), o, ho, rfl⟩
  refine ⟨?_, free, hg.inv.chain, hg.inv.free_slot, hhanded, ?_⟩
  · intro id hid
    rw [hi.drops id hid]
    by_cases ha : id ∈ s.arcs
    · rw [if_pos ha, if_pos ((arcs_iff hi id).mp ha)]
    · rw [if_neg ha, if_neg (fun h => ha ((arcs_iff hi id).mpr h))]
  · intro he b hb
    rcases hhanded b hb with h | ⟨id, hid, -⟩
    · exact h
    · rw [he] at hid
      cases hid

theorem inv_new {s t : State} {l : Layout} {page : Option Nat} (hi : Inv s)
    (hg : (arcObjectLayout l).size ≤ PAGE_SIZE ∧ (arcObjectLayout l).align ≤ PAGE_SIZE ∧
      FreshPage s.k.pages page) (ht : new s l page = some t) : Inv t := by
  obtain ⟨free, hf, hh⟩ := hi.heap
  rcases step_alloc hf _ page hg.1 hg.2.1 hg.2.2 with ⟨-, he, -⟩ | ⟨i, p, h, hc, he, hd, hs⟩
  · rw [new, he] at ht
    cases ht
    exact hi
  · have hcls : classOf s.k.heap (arcObjectLayout l) = some i := by
      rw [classOf_eq hf.inv.size, hc]
    rw [new, he, hcls] at ht
    cases ht
    obtain ⟨free', hinv, hother, hkeep⟩ := hd.inv
    have hgood : Good ⟨h, ⟨p, i, arcObjectLayout l⟩ :: s.k.live, grown s.k.heap i page s.k.pages⟩
        free' := by
      refine ⟨hinv, ?_⟩
      intro b hb
      rcases List.mem_cons.mp hb with rfl | hb
      · exact hc
      · exact hf.cls b hb
    have hfresh : (⟨p, i, arcObjectLayout l⟩ : Block) ∉ s.k.live := by
      intro hm
      exact (List.nodup_cons.mp hinv.nodup).1 (List.mem_map_of_mem (f := Block.slot) hm)
    have hnew := hi.young s.next (Nat.le_refl _)
    have hnone : s.next ∉ s.arcs := hi.gone _ hnew.1
    constructor
    · refine ⟨free', hgood, ?_⟩
      intro b hb
      rcases List.mem_cons.mp hb with rfl | hb
      · exact .inr (by simp [Block.slot])
      · rcases hh b hb with hb | hb
        · by_cases hj : b.1 = i
          · rw [hj] at hb
            rcases hkeep b.2 hb with he | hb
            · exact .inr (by simp [Block.slot, ← he, ← hj])
            · exact .inl (by rw [hj]; exact hb)
          · exact .inl (by rw [hother b.1 hj]; exact hb)
        · exact .inr (List.mem_cons_of_mem _ hb)
    · intro id o ho
      by_cases he : id = s.next
      · subst he
        have ho' : o = ⟨⟨p, i, arcObjectLayout l⟩, 1⟩ := by simpa using ho.symm
        simp [ho']
      · exact List.mem_cons_of_mem _ (hi.live id o (by simpa [he] using ho))
    · intro b hb
      rcases List.mem_cons.mp hb with rfl | hb
      · exact ⟨s.next, ⟨⟨p, i, arcObjectLayout l⟩, 1⟩, by simp, rfl⟩
      · obtain ⟨id, o, ho, hb⟩ := hi.object b hb
        have he : id ≠ s.next := by
          intro he
          rw [he, hnew.1] at ho
          cases ho
        exact ⟨id, o, by simpa [he] using ho, hb⟩
    · intro id o id' o' ho ho' hb
      by_cases he : id = s.next <;> by_cases he' : id' = s.next
      · rw [he, he']
      · have h₁ : o = ⟨⟨p, i, arcObjectLayout l⟩, 1⟩ := by subst he; simpa using ho.symm
        have h₂ := hi.live id' o' (by simpa [he'] using ho')
        exact absurd (by rw [← hb, h₁] at h₂; exact h₂) hfresh
      · have h₁ : o' = ⟨⟨p, i, arcObjectLayout l⟩, 1⟩ := by subst he'; simpa using ho'.symm
        have h₂ := hi.live id o (by simpa [he] using ho)
        exact absurd (by rw [hb, h₁] at h₂; exact h₂) hfresh
      · exact hi.inj id o id' o' (by simpa [he] using ho) (by simpa [he'] using ho') hb
    · intro id o ho
      by_cases he : id = s.next
      · subst he
        have ho' : o = ⟨⟨p, i, arcObjectLayout l⟩, 1⟩ := by simpa using ho.symm
        simp [ho', List.count_eq_zero.mpr hnone]
      · simpa [Ne.symm he] using hi.count id o (by simpa [he] using ho)
    · intro id ho
      have he : id ≠ s.next := by
        intro he
        simp [he] at ho
      simpa [he] using hi.gone id (by simpa [he] using ho)
    · intro id hid
      by_cases he : id = s.next
      · subst he
        simpa using hnew.2
      · have hlt : id < s.next := by
          change id < s.next + 1 at hid
          omega
        simpa [he] using hi.drops id hlt
    · intro id hid
      have he : id ≠ s.next := by
        change s.next + 1 ≤ id at hid
        omega
      simpa [he] using hi.young id (by change s.next + 1 ≤ id at hid; omega)

/-- Changing a count that stays positive, together with the number of `Arc`s. -/
theorem inv_recount {s : State} (hi : Inv s) {id n : Nat} {o : Object} {arcs : List Nat}
    (ho : s.objects id = some o) (hn : n = arcs.count id) (hpos : 0 < n)
    (hother : ∀ j, j ≠ id → arcs.count j = s.arcs.count j) :
    Inv { s with
      objects := Function.update s.objects id (some { o with refCount := n })
      arcs := arcs } := by
  have hget : ∀ j p, Function.update s.objects id (some { o with refCount := n }) j = some p →
      ∃ q, s.objects j = some q ∧ q.block = p.block := by
    intro j p hp
    by_cases he : j = id
    · subst he
      have hp' : p = { o with refCount := n } := by simpa using hp.symm
      exact ⟨o, ho, by rw [hp']⟩
    · exact ⟨p, by simpa [he] using hp, rfl⟩
  have hsome : ∀ j, (Function.update s.objects id (some { o with refCount := n }) j).isSome =
      (s.objects j).isSome := by
    intro j
    by_cases he : j = id
    · subst he
      simp [ho]
    · simp [he]
  constructor
  · exact hi.heap
  · intro j p hp
    obtain ⟨q, hq, hb⟩ := hget j p hp
    exact hb ▸ hi.live j q hq
  · intro b hb
    obtain ⟨j, q, hq, rfl⟩ := hi.object b hb
    by_cases he : j = id
    · subst he
      have hqo : q = o := by rw [ho] at hq; exact (Option.some.inj hq).symm
      exact ⟨j, { o with refCount := n }, by simp, by rw [hqo]⟩
    · exact ⟨j, q, by simpa [he] using hq, rfl⟩
  · intro j p j' p' hp hp' hb
    obtain ⟨q, hq, hqb⟩ := hget j p hp
    obtain ⟨q', hq', hqb'⟩ := hget j' p' hp'
    exact hi.inj j q j' q' hq hq' (by rw [hqb, hqb', hb])
  · intro j p hp
    by_cases he : j = id
    · subst he
      have hp' : p = { o with refCount := n } := by simpa using hp.symm
      subst hp'
      exact ⟨hn, hpos⟩
    · have hc := hi.count j p (by simpa [he] using hp)
      exact ⟨by rw [hc.1]; exact (hother j he).symm, hc.2⟩
  · intro j hj
    have he : j ≠ id := by
      intro he
      simp [he] at hj
    have hnone := hi.gone j (by simpa [he] using hj)
    rw [← List.count_eq_zero] at hnone ⊢
    rw [← hnone]
    exact hother j he
  · intro j hj
    change _ = if (Function.update s.objects id _ j).isSome = true then 0 else 1
    rw [hsome j]
    exact hi.drops j hj
  · intro j hj
    have hy := hi.young j hj
    have he : j ≠ id := by
      intro he
      rw [he, ho] at hy
      cases hy.1
    exact ⟨by simpa [he] using hy.1, hy.2⟩

theorem pointer_class (wide : Bool) : classFor (pointerLayout wide) = some 0 := by
  cases wide <;> decide

theorem small_class {l : Layout} (hs : l.size ≤ 16) (ha : l.align ≤ 16) : classFor l = some 0 := by
  have h0 : classSize 0 = 16 := by decide
  have hf : fits ⟨classSize 0, none⟩ l = true := by simp [fits, h0, hs, ha]
  rw [classFor, List.finRange_succ, List.find?_cons, hf]

/-- The last `Arc` of an object of the smallest class goes: the block returns to
the list it came from. -/
theorem inv_last {s : State} (hi : Inv s) {id : Nat} {o : Object} (ho : s.objects id = some o)
    (hone : o.refCount = 1) (hcls : o.block.cls = 0) :
    Inv { s with
      k := ⟨addFree s.k.heap 0 o.block.ptr, s.k.live.erase o.block, s.k.pages⟩
      objects := Function.update s.objects id none
      arcs := s.arcs.erase id
      drops := id :: s.drops } := by
  obtain ⟨free, hg, hh⟩ := hi.heap
  have hb := hi.live id o ho
  have hgood := good_free hg hb
  rw [hcls] at hgood
  have hcount := (hi.count id o ho).1
  rw [hone] at hcount
  have hlive : s.k.live.Nodup := List.Nodup.of_map _ hg.inv.nodup
  constructor
  · refine ⟨_, hgood, ?_⟩
    intro b hbm
    rcases hh b hbm with h | h
    · left
      by_cases hj : b.1 = 0
      · rw [hj] at h ⊢
        simp [h]
      · simpa [hj] using h
    · obtain ⟨c, hc, rfl⟩ := List.mem_map.mp h
      by_cases he : c = o.block
      · left
        subst he
        simp [Block.slot, hcls]
      · right
        exact List.mem_map_of_mem ((List.mem_erase_of_ne he).mpr hc)
  · intro j p hp
    have he : j ≠ id := by
      intro he
      simp [he] at hp
    have hp' : s.objects j = some p := by simpa [he] using hp
    refine (List.mem_erase_of_ne ?_).mpr (hi.live j p hp')
    exact fun hbe => he (hi.inj j p id o hp' ho hbe)
  · intro b hbm
    obtain ⟨hne, hbl⟩ := hlive.mem_erase_iff.mp hbm
    obtain ⟨j, p, hp, rfl⟩ := hi.object b hbl
    have he : j ≠ id := by
      intro he
      rw [he, ho] at hp
      cases hp
      exact hne rfl
    exact ⟨j, p, by simpa [he] using hp, rfl⟩
  · intro j p j' p' hp hp' hbe
    have he : j ≠ id := by
      intro he
      simp [he] at hp
    have he' : j' ≠ id := by
      intro he
      simp [he] at hp'
    exact hi.inj j p j' p' (by simpa [he] using hp) (by simpa [he'] using hp') hbe
  · intro j p hp
    have he : j ≠ id := by
      intro he
      simp [he] at hp
    have hc := hi.count j p (by simpa [he] using hp)
    refine ⟨?_, hc.2⟩
    change p.refCount = (s.arcs.erase id).count j
    rw [List.count_erase_of_ne he, hc.1]
  · intro j hj
    change j ∉ s.arcs.erase id
    by_cases he : j = id
    · subst he
      rw [← List.count_eq_zero, List.count_erase_self, ← hcount]
    · intro hm
      exact hi.gone j (by simpa [he] using hj) (List.mem_of_mem_erase hm)
  · intro j hj
    have hd := hi.drops j hj
    by_cases he : j = id
    · subst he
      rw [ho] at hd
      simpa using hd
    · simpa [he, Ne.symm he] using hd
  · intro j hj
    have hy := hi.young j hj
    have he : j ≠ id := by
      intro he
      rw [he, ho] at hy
      cases hy.1
    simpa [he, Ne.symm he] using hy

theorem inv_drop {s t : State} {id : Nat} {wide : Bool} (hi : Inv s)
    (hsmall : SmallDrop s (.drop id wide)) (ht : drop s id wide = some t) : Inv t := by
  cases ho : s.objects id with
  | none =>
    rw [drop, ho] at ht
    cases ht
  | some o =>
    obtain ⟨hc, hpos⟩ := hi.count id o ho
    rw [drop, ho, Option.bind_some, if_neg (by omega)] at ht
    split at ht
    · rename_i hone
      obtain ⟨free, hg, -⟩ := hi.heap
      rw [SmallDrop, ho] at hsmall
      obtain ⟨hs, ha⟩ := hsmall hone
      have hcls : o.block.cls = 0 := by
        have h₁ := hg.cls _ (hi.live id o ho)
        rw [small_class hs ha] at h₁
        exact (Option.some.inj h₁).symm
      rw [freeLayout, classOf_eq hg.inv.size, pointer_class] at ht
      cases ht
      exact inv_last hi ho hone hcls
    · rename_i hone
      cases ht
      refine inv_recount hi ho ?_ (by omega) ?_
      · rw [List.count_erase_self, hc]
      · intro j hj
        exact List.count_erase_of_ne hj

theorem step_inv (s : State) (op : Op) (t : State) (hi : Inv s) (hc : SmallDrop s op)
    (hs : step s op = some t) : Inv t := by
  cases op with
  | new l page =>
    rw [step] at hs
    split at hs
    · rename_i hg
      exact inv_new hi hg hs
    · cases hs
  | clone id =>
    rw [step] at hs
    split at hs
    · rw [clone] at hs
      cases ho : s.objects id with
      | none => rw [ho] at hs; cases hs
      | some o =>
        rw [ho] at hs
        cases hs
        obtain ⟨hc, hpos⟩ := hi.count id o ho
        refine inv_recount hi ho ?_ (by omega) ?_
        · rw [List.count_cons_self, hc]
        · intro j hj
          exact List.count_cons_of_ne (Ne.symm hj)
    · cases hs
  | drop id wide =>
    rw [step] at hs
    split at hs
    · exact inv_drop hi hc hs
    · cases hs

/-- In every run whose last drops are of objects that fit the smallest class,
objects are dropped exactly once and every block stays with its class. -/
theorem balanced_of_small_drops (mem : Mem) (ops : List Op) (s : State)
    (hc : Along step SmallDrop (initial mem) ops) (hr : run step (initial mem) ops = some s) :
    Balanced s :=
  balanced_of_inv (invariant_along step_inv (initial_inv mem) hc hr)

/-- An object that fills a page with its count: its block leaves the class of
whole pages and never comes back to it. -/
theorem page_migrates :
    ∃ s, run step (initial fun _ => 0)
      [.new ⟨4088, 8, 3, rfl⟩ (some 0x1000), .drop 0 false] = some s ∧ ¬ Balanced s := by
  refine ⟨_, rfl, ?_⟩
  rintro ⟨-, free, hchain, -, -, hall⟩
  have hmem : 0x1000 ∈ free 8 := hall rfl (8, 0x1000) (by decide)
  have hnil := hchain 8
  cases hf : free 8 with
  | nil => rw [hf] at hmem; cases hmem
  | cons a l =>
    rw [hf] at hnil
    have hnone : some a = none := hnil.1.symm.trans rfl
    cases hnone

def wordLayout : Layout := ⟨8, 8, 3, rfl⟩

/-- A shared word: cloned once, dropped twice. -/
theorem balanced_word :
    ∃ s, run step (initial fun _ => 0)
      [.new wordLayout (some 0x1000), .clone 0, .drop 0 false, .drop 0 true] = some s ∧
      Balanced s := by
  have h : (run step (initial fun _ => 0)
      [.new wordLayout (some 0x1000), .clone 0, .drop 0 false, .drop 0 true]).isSome := by decide
  obtain ⟨s, hs⟩ := Option.isSome_iff_exists.mp h
  exact ⟨s, hs, balanced_of_small_drops _ _ s (by decide) hs⟩

end Crabos.Arc
