import Mathlib
import Crabos.Mem.KallocRun

/-!
# Boxes over the size-class heap (`alloc_collections/src/boxed.rs`)

A `Box` owns one block and one value. The state records the boxes that exist,
the raw pointers that `into_raw` gave out and `from_raw` did not take back, and
the values that `into_inner` moved to a caller. The log lists, newest first,
every block handed out, every block passed to `dealloc` and every drop of a
boxed value.
-/
namespace Crabos.Boxed

open Crabos.Linked Crabos.Words Crabos.Run Crabos.Kalloc

structure Owned where
  block : Block
  value : Nat
  deriving DecidableEq

inductive Event where
  | alloc (p : Nat)
  | dealloc (p : Nat)
  | drop (v : Nat)
  deriving DecidableEq, Repr

/-- `next` numbers the values that are boxed one after another. -/
structure State where
  k : Kalloc.State
  boxes : List Owned
  raws : List Owned
  values : List Nat
  next : Nat
  log : List Event

inductive Op where
  | new (layout : Layout) (page : Option Nat)
  | intoRaw (o : Owned)
  | fromRaw (o : Owned)
  | intoInner (o : Owned)
  | drop (o : Owned)
  | dropValue (v : Nat)

def initial (mem : Mem) : State := ⟨Kalloc.initial mem, [], [], [], 0, []⟩

/-- `free`: the block goes to `Allocator::dealloc` with the layout of its value. -/
def free (s : State) (b : Block) : Option State :=
  (freeLayout s.k.heap b.layout b.ptr).map fun h =>
    { s with k := ⟨h, s.k.live.erase b, s.k.pages⟩, log := .dealloc b.ptr :: s.log }

/-- `Drop for Box`: drop the value in place, then free the block. -/
def dropBox (s : State) (o : Owned) : Option State :=
  free { s with log := .drop o.value :: s.log } o.block

/-- `Box::new`. A failed allocation drops the value it was given. -/
def new (s : State) (layout : Layout) (page : Option Nat) : Option State :=
  match allocLayout s.k.heap layout page, classOf s.k.heap layout with
  | some (.ok p, h), some i =>
    some { s with
      k := ⟨h, ⟨p, i, layout⟩ :: s.k.live, grown s.k.heap i page s.k.pages⟩
      boxes := ⟨⟨p, i, layout⟩, s.next⟩ :: s.boxes
      next := s.next + 1
      log := .alloc p :: s.log }
  | some (.error _, h), _ =>
    some { s with k := ⟨h, s.k.live, s.k.pages⟩, next := s.next + 1, log := .drop s.next :: s.log }
  | _, _ => none

/-- `Box::into_inner`: the value is read out and the block freed; nothing forgets
the box, so its destructor runs when the function returns. -/
def intoInner (s : State) (o : Owned) : Option State :=
  (free { s with boxes := s.boxes.erase o, values := o.value :: s.values } o.block).bind
    fun t => dropBox t o

def step (s : State) : Op → Option State
  | .new layout page =>
    if layout.size ≤ PAGE_SIZE ∧ layout.align ≤ PAGE_SIZE ∧ FreshPage s.k.pages page then
      new s layout page
    else none
  | .intoRaw o =>
    if o ∈ s.boxes then some { s with boxes := s.boxes.erase o, raws := o :: s.raws } else none
  | .fromRaw o =>
    if o ∈ s.raws then some { s with boxes := o :: s.boxes, raws := s.raws.erase o } else none
  | .intoInner o => if o ∈ s.boxes then intoInner s o else none
  | .drop o => if o ∈ s.boxes then dropBox { s with boxes := s.boxes.erase o } o else none
  | .dropValue v =>
    if v ∈ s.values then some { s with values := s.values.erase v, log := .drop v :: s.log }
    else none

/-- `AtomicList::push_front` of the item that ends up in `o`. -/
def pushFront (layout : Layout) (page : Option Nat) (o : Owned) : List Op :=
  [.new layout page, .intoRaw o]

/-- `AtomicListIter::next` on a list whose first item is `o`. -/
def next (o : Owned) : List Op := [.fromRaw o, .intoInner o]

/-! ## Released once, dropped once -/

/-- Since its last `dealloc`, block `p` was handed out again. -/
def Armed (p : Nat) (log : List Event) : Prop :=
  ∀ l m, log = l ++ .dealloc p :: m → .alloc p ∈ l

/-- Between two `dealloc`s of one block there is an allocation of it. -/
def ReleasedOnce (log : List Event) : Prop :=
  ∀ p k l m, log = k ++ .dealloc p :: (l ++ .dealloc p :: m) → .alloc p ∈ l

def held (s : State) : List Owned := s.boxes ++ s.raws

structure Safe (s : State) : Prop where
  released : ReleasedOnce s.log
  dropped : ∀ v, s.log.count (.drop v) ≤ 1
  lists : ∀ i, ∃ l, Chain (link s.k.heap.mem) (s.k.heap.classes i).free l ∧ l.Nodup
  fresh : ∀ layout page p h, layout.size ≤ PAGE_SIZE → layout.align ≤ PAGE_SIZE →
    FreshPage s.k.pages page → allocLayout s.k.heap layout page = some (.ok p, h) →
    ∀ o ∈ held s, o.block.ptr ≠ p

theorem armed_alloc (p : Nat) (log : List Event) : Armed p (.alloc p :: log) := by
  intro l m h
  cases l with
  | nil => simp at h
  | cons e l =>
    have he : e = .alloc p := by simpa using (congrArg List.head? h).symm
    simp [he]

theorem armed_cons {p : Nat} {log : List Event} {e : Event} (he : e ≠ .dealloc p)
    (h : Armed p log) : Armed p (e :: log) := by
  intro l m hl
  cases l with
  | nil =>
    have : e = .dealloc p := by simpa using congrArg List.head? hl
    exact absurd this he
  | cons f l =>
    have ht : log = l ++ .dealloc p :: m := by simpa using congrArg List.tail hl
    exact List.mem_cons_of_mem _ (h l m ht)

theorem releasedOnce_cons {log : List Event} {e : Event} (h : ReleasedOnce log)
    (he : ∀ p, e = .dealloc p → Armed p log) : ReleasedOnce (e :: log) := by
  intro p k l m hl
  cases k with
  | nil =>
    have hh : e = .dealloc p := by simpa using congrArg List.head? hl
    have ht : log = l ++ .dealloc p :: m := by simpa using congrArg List.tail hl
    exact he p hh l m ht
  | cons f k =>
    have ht : log = k ++ .dealloc p :: (l ++ .dealloc p :: m) := by
      simpa using congrArg List.tail hl
    exact h p k l m ht

/-! ## Runs without `into_inner` -/

/-- The number of places, the log included, in which value `v` shows up. -/
def uses (s : State) (v : Nat) : Nat :=
  s.log.count (.drop v) + ((held s).map Owned.value).count v + s.values.count v

/-- A value that was boxed is in one place at most, a later one in none. -/
def Ledger (s : State) : Prop := ∀ v, uses s v ≤ if v < s.next then 1 else 0

theorem ledger_same {s t : State} (h : Ledger s) (hn : t.next = s.next)
    (hu : ∀ v, uses t v = uses s v) : Ledger t := by
  intro v
  rw [hu v, hn]
  exact h v

theorem ledger_next {s t : State} (h : Ledger s) (hn : t.next = s.next + 1)
    (hu : ∀ v, uses t v = uses s v + if v = s.next then 1 else 0) : Ledger t := by
  intro v
  have hv := h v
  rw [hu v, hn]
  split at hv <;> split <;> split <;> omega

structure Inv (s : State) : Prop where
  heap : ∃ free, Good s.k free
  owned : ∀ o ∈ held s, o.block ∈ s.k.live
  nodup : ((held s).map Owned.block).Nodup
  armed : ∀ b ∈ s.k.live, Armed b.ptr s.log
  released : ReleasedOnce s.log
  ledger : Ledger s

theorem initial_inv (mem : Mem) : Inv (initial mem) where
  heap := ⟨_, initial_good mem⟩
  owned := by simp [initial, held]
  nodup := by simp [initial, held]
  armed := by simp [initial, Kalloc.initial]
  released := by
    intro p k l m h
    simp [initial] at h
  ledger := by simp [Ledger, initial, uses, held]

/-- The invariant does not see which owned blocks are boxes and which are raw. -/
theorem inv_perm {s : State} (hi : Inv s) {boxes raws : List Owned}
    (hp : (boxes ++ raws).Perm (held s)) : Inv { s with boxes := boxes, raws := raws } where
  heap := hi.heap
  owned := fun o ho => hi.owned o (hp.mem_iff.mp ho)
  nodup := (hp.map _).nodup_iff.mpr hi.nodup
  armed := hi.armed
  released := hi.released
  ledger := ledger_same hi.ledger rfl fun v => by
    have hc := (hp.map Owned.value).count_eq v
    simp only [uses, held] at hc ⊢
    omega

theorem live_ptr_ne {k : Kalloc.State} {free : Fin 9 → List Nat} (hg : Good k free)
    {b c : Block} (hb : b ∈ k.live) (hc : c ∈ k.live) (hne : b ≠ c) : b.ptr ≠ c.ptr := by
  have hs : b.slot ≠ c.slot := fun he => hne (List.inj_on_of_nodup_map hg.inv.nodup hb hc he)
  have ha := blocks_apart hg.inv.distinct hg.inv.aligned
    (hg.inv.live_slot b.slot (List.mem_map_of_mem hb))
    (hg.inv.live_slot c.slot (List.mem_map_of_mem hc)) hs
  have h₁ := classSize_pos b.cls
  have h₂ := classSize_pos c.cls
  intro he
  rcases ha with ha | ha
  · change b.ptr + classSize b.cls ≤ c.ptr at ha
    omega
  · change c.ptr + classSize c.cls ≤ b.ptr at ha
    omega

/-- The block of a successful allocation was not in use. -/
theorem handed_fresh {k : Kalloc.State} {free : Fin 9 → List Nat}
    {pages : List (Nat × Fin 9)} {h : Heap} {i : Fin 9} {p : Nat}
    (hh : Handed k.heap free (k.live.map Block.slot) pages i p h) :
    ∀ b ∈ k.live, b.ptr ≠ p := by
  obtain ⟨free', hi, -, -⟩ := hh.inv
  intro b hb he
  have hn := List.nodup_cons.mp hi.nodup
  have hm := List.mem_map_of_mem (f := Block.slot) hb
  have ha := blocks_apart hi.distinct hi.aligned
    (hi.live_slot b.slot (List.mem_cons_of_mem _ hm)) (hi.live_slot (i, p) (by simp))
    (by intro hs; exact hn.1 (hs ▸ hm))
  have h₁ := classSize_pos b.cls
  have h₂ := classSize_pos i
  rcases ha with ha | ha
  · change b.ptr + classSize b.cls ≤ p at ha
    omega
  · change p + classSize i ≤ b.ptr at ha
    omega

theorem inv_new {s t : State} {layout : Layout} {page : Option Nat} (hi : Inv s)
    (hg : layout.size ≤ PAGE_SIZE ∧ layout.align ≤ PAGE_SIZE ∧ FreshPage s.k.pages page)
    (ht : new s layout page = some t) : Inv t := by
  obtain ⟨free, hf⟩ := hi.heap
  rcases step_alloc hf layout page hg.1 hg.2.1 hg.2.2 with ⟨-, he, -⟩ | ⟨i, p, h, hc, he, hh, hs⟩
  · rw [new, he] at ht
    cases ht
    refine ⟨⟨free, hf⟩, hi.owned, hi.nodup, ?_, ?_, ?_⟩
    · exact fun b hb => armed_cons (by simp) (hi.armed b hb)
    · exact releasedOnce_cons hi.released (by simp)
    · refine ledger_next hi.ledger rfl fun v => ?_
      by_cases he : v = s.next
      · subst he
        simp [uses, held]
        omega
      · simp [uses, held, he, Ne.symm he]
  · have hcls : classOf s.k.heap layout = some i := by rw [classOf_eq hf.inv.size, hc]
    rw [new, he, hcls] at ht
    cases ht
    have hfresh := handed_fresh hh
    refine ⟨step_good _ _ _ ⟨free, hf⟩ hs, ?_, ?_, ?_, ?_, ?_⟩
    · intro o ho
      rcases List.mem_cons.mp ho with rfl | ho
      · simp
      · exact List.mem_cons_of_mem _ (hi.owned o ho)
    · refine List.nodup_cons.mpr ⟨?_, hi.nodup⟩
      intro hm
      obtain ⟨o, ho, hb⟩ := List.mem_map.mp hm
      exact hfresh _ (hi.owned o ho) (by rw [hb])
    · intro b hb
      rcases List.mem_cons.mp hb with rfl | hb
      · exact armed_alloc _ _
      · exact armed_cons (by simp) (hi.armed b hb)
    · exact releasedOnce_cons hi.released (by simp)
    · refine ledger_next hi.ledger rfl fun v => ?_
      by_cases he : v = s.next
      · subst he
        simp [uses, held]
        omega
      · simp [uses, held, he, Ne.symm he]

/-- Dropping a box releases its block and its value, both for the first time. -/
theorem inv_dropBox {s t : State} {o : Owned} (hi : Inv s) (ho : o ∈ s.boxes)
    (ht : dropBox { s with boxes := s.boxes.erase o } o = some t) : Inv t := by
  obtain ⟨f, hf⟩ := hi.heap
  have hp : (held s).Perm (o :: (s.boxes.erase o ++ s.raws)) :=
    (List.perm_cons_erase ho).append_right s.raws
  have hb : o.block ∈ s.k.live := hi.owned o (by simp [held, ho])
  rw [dropBox, free, step_free hf hb] at ht
  cases ht
  have hnd := (hp.map Owned.block).nodup_iff.mp hi.nodup
  have harmed := hi.armed o.block hb
  refine ⟨⟨_, good_free hf hb⟩, ?_, ?_, ?_, ?_, ?_⟩
  · intro r hr
    have hr' : r ∈ held s := hp.mem_iff.mpr (List.mem_cons_of_mem _ hr)
    refine (List.mem_erase_of_ne ?_).mpr (hi.owned r hr')
    intro he
    exact (List.nodup_cons.mp hnd).1 (he ▸ List.mem_map_of_mem (f := Owned.block) hr)
  · exact (List.nodup_cons.mp hnd).2
  · intro b hb'
    have hb'' : b ∈ s.k.live := List.mem_of_mem_erase hb'
    have hne : b ≠ o.block := by
      intro he
      subst he
      have hl : s.k.live.Nodup := List.Nodup.of_map _ hf.inv.nodup
      exact (hl.mem_erase_iff.mp hb').1 rfl
    have hptr := live_ptr_ne hf hb hb'' (Ne.symm hne)
    exact armed_cons (by simpa using hptr) (armed_cons (by simp) (hi.armed b hb''))
  · refine releasedOnce_cons (releasedOnce_cons hi.released (by simp)) ?_
    intro p he
    cases he
    exact armed_cons (by simp) harmed
  · refine ledger_same hi.ledger rfl fun v => ?_
    have hc := (hp.map Owned.value).count_eq v
    simp only [uses, held, List.map_cons, List.count_cons] at hc ⊢
    by_cases he : o.value = v
    · subst he
      simp at hc ⊢
      omega
    · simp [he] at hc ⊢
      omega

def Op.isIntoInner : Op → Bool
  | .intoInner _ => true
  | _ => false

theorem step_inv (s : State) (op : Op) (t : State) (hi : Inv s) (hop : op.isIntoInner = false)
    (hs : step s op = some t) : Inv t := by
  cases op with
  | new layout page =>
    rw [step] at hs
    split at hs
    · rename_i hg
      exact inv_new hi hg hs
    · cases hs
  | intoRaw o =>
    rw [step] at hs
    split at hs
    · rename_i ho
      cases hs
      apply inv_perm hi
      have hp : (o :: s.boxes.erase o ++ s.raws).Perm (s.boxes ++ s.raws) :=
        (List.perm_cons_erase ho).symm.append_right s.raws
      exact List.perm_middle.trans hp
    · cases hs
  | fromRaw o =>
    rw [step] at hs
    split at hs
    · rename_i ho
      cases hs
      apply inv_perm hi
      have hp : (s.boxes ++ o :: s.raws.erase o).Perm (s.boxes ++ s.raws) :=
        (List.perm_cons_erase ho).symm.append_left s.boxes
      exact List.perm_middle.symm.trans hp
    · cases hs
  | intoInner o => cases hop
  | drop o =>
    rw [step] at hs
    split at hs
    · rename_i ho
      exact inv_dropBox hi ho hs
    · cases hs
  | dropValue v =>
    rw [step] at hs
    split at hs
    · rename_i hv
      cases hs
      refine ⟨hi.heap, hi.owned, hi.nodup, ?_, ?_, ?_⟩
      · exact fun b hb => armed_cons (by simp) (hi.armed b hb)
      · exact releasedOnce_cons hi.released (by simp)
      · refine ledger_same hi.ledger rfl fun w => ?_
        have hc := (List.perm_cons_erase hv).count_eq w
        by_cases he : v = w
        · subst he
          simp [uses, held] at hc ⊢
          omega
        · simp [uses, held, he] at hc ⊢
          omega
    · cases hs

theorem safe_of_inv {s : State} (hi : Inv s) : Safe s where
  released := hi.released
  dropped := by
    intro v
    have h := hi.ledger v
    simp only [uses] at h
    split at h <;> omega
  lists := by
    obtain ⟨free, hf⟩ := hi.heap
    exact fun i => ⟨free i, hf.inv.chain i, chain_nodup (hf.inv.chain i)⟩
  fresh := by
    obtain ⟨free, hf⟩ := hi.heap
    intro layout page p h hsz hal hpg ha o ho
    rcases step_alloc hf layout page hsz hal hpg with ⟨-, he, -⟩ | ⟨i, r, h', -, he, hh, -⟩
    · rw [he] at ha
      cases ha
    · rw [he] at ha
      cases ha
      exact handed_fresh hh _ (hi.owned o ho)

/-! ## The double release of `into_inner` -/

theorem free_log {s t : State} {b : Block} (h : free s b = some t) :
    t.log = .dealloc b.ptr :: s.log := by
  rw [free] at h
  cases hf : freeLayout s.k.heap b.layout b.ptr with
  | none => rw [hf] at h; cases h
  | some k =>
    rw [hf] at h
    cases h
    rfl

theorem intoInner_log {s t : State} {o : Owned} (h : intoInner s o = some t) :
    t.log = .dealloc o.block.ptr :: .drop o.value :: .dealloc o.block.ptr :: s.log := by
  rw [intoInner] at h
  cases hf : free { s with boxes := s.boxes.erase o, values := o.value :: s.values } o.block with
  | none => rw [hf] at h; cases h
  | some u =>
    rw [hf] at h
    rw [free_log h]
    change _ :: _ :: u.log = _
    rw [free_log hf]

/-- The log only grows. -/
theorem step_log {s t : State} {op : Op} (h : step s op = some t) :
    ∃ l, t.log = l ++ s.log := by
  cases op with
  | new layout page =>
    rw [step] at h
    split at h
    · rw [new] at h
      split at h
      · cases h
        exact ⟨[_], rfl⟩
      · cases h
        exact ⟨[_], rfl⟩
      · cases h
    · cases h
  | intoRaw o =>
    rw [step] at h
    split at h
    · cases h
      exact ⟨[], rfl⟩
    · cases h
  | fromRaw o =>
    rw [step] at h
    split at h
    · cases h
      exact ⟨[], rfl⟩
    · cases h
  | intoInner o =>
    rw [step] at h
    split at h
    · exact ⟨[_, _, _], intoInner_log h⟩
    · cases h
  | drop o =>
    rw [step] at h
    split at h
    · rw [dropBox] at h
      exact ⟨[_, _], free_log h⟩
    · cases h
  | dropValue v =>
    rw [step] at h
    split at h
    · cases h
      exact ⟨[_], rfl⟩
    · cases h

theorem run_log {s t : State} {ops : List Op} (h : run step s ops = some t) :
    ∃ l, t.log = l ++ s.log := by
  refine invariant (I := fun u => ∃ l, u.log = l ++ s.log) ?_ ⟨[], rfl⟩ h
  rintro u op w ⟨l, hl⟩ hw
  obtain ⟨m, hm⟩ := step_log hw
  exact ⟨m ++ l, by rw [hm, hl, List.append_assoc]⟩

/-- Any `into_inner` in a run leaves two releases of one block in the log with no
allocation between them. -/
theorem not_released_of_intoInner {s t : State} {ops : List Op} (h : run step s ops = some t)
    {o : Owned} (ho : Op.intoInner o ∈ ops) : ¬ ReleasedOnce t.log := by
  obtain ⟨as, bs, rfl⟩ := List.append_of_mem ho
  rw [run_append] at h
  cases ha : run step s as with
  | none => rw [ha] at h; cases h
  | some u =>
    rw [ha, Option.bind_some, run_cons] at h
    cases hu : step u (.intoInner o) with
    | none => rw [hu] at h; cases h
    | some w =>
      rw [hu, Option.bind_some] at h
      obtain ⟨l, hl⟩ := run_log h
      rw [step] at hu
      split at hu
      · intro hr
        have hm := hr o.block.ptr l [.drop o.value] u.log (by rw [hl, intoInner_log hu]; simp)
        simp at hm
      · cases hu

/-- A sequence of box operations releases every block and drops every value at
most once exactly when it never calls `into_inner`. -/
theorem safe_iff_no_intoInner (mem : Mem) (ops : List Op) (s : State)
    (hr : run step (initial mem) ops = some s) :
    Safe s ↔ ∀ o, Op.intoInner o ∉ ops := by
  constructor
  · intro h o ho
    exact not_released_of_intoInner hr ho h.released
  · intro h
    have hc : Along step (fun _ op => op.isIntoInner = false) (initial mem) ops := by
      refine along_of_forall _ _ ?_
      intro _ op hop
      cases op with
      | intoInner o => exact absurd hop (h o)
      | _ => rfl
    exact safe_of_inv (invariant_along step_inv (initial_inv mem) hc hr)

/-- An item as large as a page, the first block of a fresh heap. -/
def item : Owned := ⟨⟨0x1000, 8, pageLayout⟩, 0⟩

/-- A pushed item that is taken back and dropped as a box. -/
theorem safe_push_drop :
    ∃ s, run step (initial fun _ => 0)
      (pushFront pageLayout (some 0x1000) item ++ [.fromRaw item, .drop item]) = some s ∧ Safe s := by
  have h : (run step (initial fun _ => 0)
      (pushFront pageLayout (some 0x1000) item ++ [.fromRaw item, .drop item])).isSome := by decide
  obtain ⟨s, hs⟩ := Option.isSome_iff_exists.mp h
  refine ⟨s, hs, (safe_iff_no_intoInner _ _ s hs).mpr ?_⟩
  simp [pushFront]

/-- One `push_front` followed by one `next` already releases the item twice. -/
theorem push_next_unsafe :
    ∃ s, run step (initial fun _ => 0)
      (pushFront pageLayout (some 0x1000) item ++ next item) = some s ∧ ¬ Safe s := by
  have h : (run step (initial fun _ => 0)
      (pushFront pageLayout (some 0x1000) item ++ next item)).isSome := by decide
  obtain ⟨s, hs⟩ := Option.isSome_iff_exists.mp h
  refine ⟨s, hs, fun hsafe => ?_⟩
  exact not_released_of_intoInner hs (o := item) (by simp [pushFront, next]) hsafe.released

end Crabos.Boxed
