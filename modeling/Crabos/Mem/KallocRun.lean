import Crabos.Lib.Run
import Crabos.Lib.Lists
import Crabos.Mem.KallocInv

/-!
# Runs of the size-class heap

Sequences of `alloc_layout` and `free_layout` calls, in any order and with any
pattern of page failures, where every free passes a block in use with the
layout it was allocated with. Owners may store anything in their blocks.
-/
namespace Crabos.Kalloc

open Crabos.Linked Crabos.Words Crabos.Run Crabos.Lists

/-- A block in use, with the layout it was asked for and the class it came from. -/
structure Block where
  ptr : Nat
  cls : Fin 9
  layout : Layout
  deriving DecidableEq

structure State where
  heap : Heap
  live : List Block
  pages : List (Nat × Fin 9)

/-- `alloc` carries the outcome of `kvirt::alloc_page`, should it be called;
`write` is the owner of a block storing a word in it. -/
inductive Op where
  | alloc (layout : Layout) (page : Option Nat)
  | free (b : Block)
  | write (b : Block) (a v : Nat)

def initial (mem : Mem) : State := ⟨new mem, [], []⟩

def step (s : State) : Op → Option State
  | .alloc layout page =>
    if layout.size ≤ PAGE_SIZE ∧ layout.align ≤ PAGE_SIZE ∧ FreshPage s.pages page then
      match allocLayout s.heap layout page, classOf s.heap layout with
      | some (.ok p, h), some i => some ⟨h, ⟨p, i, layout⟩ :: s.live, grown s.heap i page s.pages⟩
      | some (.error _, h), _ => some ⟨h, s.live, s.pages⟩
      | _, _ => none
    else none
  | .free b =>
    if b ∈ s.live then
      (freeLayout s.heap b.layout b.ptr).map fun h => ⟨h, s.live.erase b, s.pages⟩
    else none
  | .write b a v =>
    if b ∈ s.live ∧ b.ptr ≤ a ∧ a < b.ptr + b.layout.size then
      some ⟨⟨s.heap.classes, Function.update s.heap.mem a v⟩, s.live, s.pages⟩
    else none

def Block.slot (b : Block) : Fin 9 × Nat := (b.cls, b.ptr)

structure Good (s : State) (free : Fin 9 → List Nat) : Prop where
  inv : Inv s.heap free (s.live.map Block.slot) s.pages
  cls : ∀ b ∈ s.live, classFor b.layout = some b.cls

theorem initial_good (mem : Mem) : Good (initial mem) (fun _ => []) :=
  ⟨initial_inv mem, by simp [initial]⟩

/-- One allocation: either it fails and changes nothing, or it hands out a block. -/
theorem step_alloc {s : State} {free : Fin 9 → List Nat} (hg : Good s free) (layout : Layout)
    (page : Option Nat) (hs : layout.size ≤ PAGE_SIZE) (ha : layout.align ≤ PAGE_SIZE)
    (hp : FreshPage s.pages page) :
    (page = none ∧ allocLayout s.heap layout page = some (.error ⟨⟩, s.heap) ∧
      step s (.alloc layout page) = some s) ∨
    ∃ i p h, classFor layout = some i ∧ allocLayout s.heap layout page = some (.ok p, h) ∧
      Handed s.heap free (s.live.map Block.slot) (grown s.heap i page s.pages) i p h ∧
      step s (.alloc layout page) =
        some ⟨h, ⟨p, i, layout⟩ :: s.live, grown s.heap i page s.pages⟩ := by
  obtain ⟨i, hi⟩ := classFor_isSome hs ha
  have hc : classOf s.heap layout = some i := by rw [classOf_eq hg.inv.size, hi]
  have hguard : layout.size ≤ PAGE_SIZE ∧ layout.align ≤ PAGE_SIZE ∧ FreshPage s.pages page :=
    ⟨hs, ha, hp⟩
  rcases alloc_cases hg.inv i page hp with ⟨hn, -, he⟩ | ⟨p, h, he, hh⟩
  · left
    have hl : allocLayout s.heap layout page = some (.error ⟨⟩, s.heap) := by
      rw [allocLayout, hc]
      exact he
    exact ⟨hn, hl, by rw [step, if_pos hguard, hl]⟩
  · right
    have hl : allocLayout s.heap layout page = some (.ok p, h) := by
      rw [allocLayout, hc]
      exact he
    exact ⟨i, p, h, hi, hl, hh, by rw [step, if_pos hguard, hl, hc]⟩

theorem step_free {s : State} {free : Fin 9 → List Nat} (hg : Good s free) {b : Block}
    (hb : b ∈ s.live) : freeLayout s.heap b.layout b.ptr = some (addFree s.heap b.cls b.ptr) := by
  rw [freeLayout, classOf_eq hg.inv.size, hg.cls b hb]
  rfl

theorem good_free {s : State} {free : Fin 9 → List Nat} (hg : Good s free) {b : Block}
    (hb : b ∈ s.live) :
    Good ⟨addFree s.heap b.cls b.ptr, s.live.erase b, s.pages⟩
      (Function.update free b.cls (b.ptr :: free b.cls)) where
  inv := by
    have hi := inv_addFree hg.inv (i := b.cls) (p := b.ptr) (List.mem_map_of_mem (f := Block.slot) hb)
    rw [map_erase_of_nodup Block.slot hg.inv.nodup hb]
    exact hi
  cls := fun c hc => hg.cls c (List.mem_of_mem_erase hc)

/-- Every step keeps the invariant, whatever the page allocator answers. -/
theorem step_good (s : State) (op : Op) (t : State) (hg : ∃ free, Good s free)
    (hs : step s op = some t) : ∃ free, Good t free := by
  obtain ⟨free, hg⟩ := hg
  cases op with
  | alloc layout page =>
    by_cases hguard : layout.size ≤ PAGE_SIZE ∧ layout.align ≤ PAGE_SIZE ∧ FreshPage s.pages page
    · obtain ⟨h₁, h₂, h₃⟩ := hguard
      rcases step_alloc hg layout page h₁ h₂ h₃ with ⟨-, -, he⟩ | ⟨i, p, h, hi, -, hh, he⟩
      · rw [he] at hs
        cases hs
        exact ⟨free, hg⟩
      · rw [he] at hs
        cases hs
        obtain ⟨free', hi', -, -⟩ := hh.inv
        refine ⟨free', hi', ?_⟩
        intro b hb
        rcases List.mem_cons.mp hb with rfl | hb
        · exact hi
        · exact hg.cls b hb
    · rw [step, if_neg hguard] at hs
      cases hs
  | free b =>
    by_cases hb : b ∈ s.live
    · rw [step, if_pos hb, step_free hg hb] at hs
      cases hs
      exact ⟨_, good_free hg hb⟩
    · rw [step, if_neg hb] at hs
      cases hs
  | write b a v =>
    rw [step] at hs
    split at hs
    · rename_i hc
      cases hs
      obtain ⟨hb, h₁, h₂⟩ := hc
      have hsize := (classFor_fits (hg.cls b hb)).1
      exact ⟨free, inv_write hg.inv v (List.mem_map_of_mem (f := Block.slot) hb) h₁
        (Nat.lt_of_lt_of_le h₂ (Nat.add_le_add_left hsize _)), hg.cls⟩
    · cases hs

/-- Aligned, large enough, and inside one page that was obtained from `kvirt`. -/
def Placed (pages : List (Nat × Fin 9)) (b : Block) : Prop :=
  b.layout.align ∣ b.ptr ∧ b.layout.size ≤ classSize b.cls ∧
    ∃ q ∈ pages.map Prod.fst, q ≤ b.ptr ∧ b.ptr + classSize b.cls ≤ q + PAGE_SIZE

theorem placed_of_good {s : State} {free : Fin 9 → List Nat} (hg : Good s free) {b : Block}
    (hb : b ∈ s.live) : Placed s.pages b := by
  obtain ⟨q, hq, hs⟩ := hg.inv.live_slot b.slot (List.mem_map_of_mem hb)
  have hf := classFor_fits (hg.cls b hb)
  exact ⟨slot_aligned hs (hg.inv.aligned _ hq).1 hf.2, hf.1, q,
    List.mem_map_of_mem (f := Prod.fst) hq, hs.ge, hs.inside⟩

/-- What every reachable heap promises about its blocks and about the next call. -/
structure Sound (s : State) : Prop where
  placed : ∀ b ∈ s.live, Placed s.pages b
  disjoint : s.live.Pairwise fun b c => Apart b.cls b.ptr c.cls c.ptr
  lists : ∃ free : Fin 9 → List Nat, (∀ i, Chain (link s.heap.mem) (s.heap.classes i).free (free i)) ∧
    ∀ b ∈ s.live, ∀ i, ∀ p ∈ free i, Apart b.cls b.ptr i p
  /-- An allocation either fails and changes nothing, or hands out a cleared block. -/
  alloc : ∀ layout page, layout.size ≤ PAGE_SIZE → layout.align ≤ PAGE_SIZE →
    FreshPage s.pages page →
    (page = none ∧ allocLayout s.heap layout page = some (.error ⟨⟩, s.heap)) ∨
    ∃ b t, b.layout = layout ∧ allocLayout s.heap layout page = some (.ok b.ptr, t.heap) ∧
      step s (.alloc layout page) = some t ∧ t.live = b :: s.live ∧ Placed t.pages b ∧
      ∀ a, b.ptr ≤ a → a < b.ptr + classSize b.cls → t.heap.mem a = 0
  /-- A freed block goes to the front of the list of the class it came from. -/
  dealloc : ∀ b ∈ s.live, ∀ free : Fin 9 → List Nat,
    (∀ i, Chain (link s.heap.mem) (s.heap.classes i).free (free i)) →
    ∃ h, freeLayout s.heap b.layout b.ptr = some h ∧
      ∀ i, Chain (link h.mem) (h.classes i).free
        (Function.update free b.cls (b.ptr :: free b.cls) i)

theorem sound_of_good {s : State} {free : Fin 9 → List Nat} (hg : Good s free) : Sound s where
  placed := fun b hb => placed_of_good hg hb
  disjoint := by
    have hp : (s.live.map Block.slot).Pairwise fun a b => a ≠ b := hg.inv.nodup
    rw [List.pairwise_map] at hp
    refine hp.imp_of_mem ?_
    intro b c hb hc hne
    exact blocks_apart hg.inv.distinct hg.inv.aligned
      (hg.inv.live_slot b.slot (List.mem_map_of_mem hb))
      (hg.inv.live_slot c.slot (List.mem_map_of_mem hc)) hne
  lists := by
    refine ⟨free, hg.inv.chain, ?_⟩
    intro b hb i p hp
    refine blocks_apart hg.inv.distinct hg.inv.aligned
      (hg.inv.live_slot b.slot (List.mem_map_of_mem hb)) (hg.inv.free_slot i p hp) ?_
    intro he
    exact hg.inv.apart i p hp (he ▸ List.mem_map_of_mem (f := Block.slot) hb)
  alloc := by
    intro layout page hs ha hp
    rcases step_alloc hg layout page hs ha hp with ⟨hn, he, -⟩ | ⟨i, p, h, hi, hl, hh, he⟩
    · exact .inl ⟨hn, he⟩
    · refine .inr ⟨⟨p, i, layout⟩, _, rfl, hl, he, rfl, ?_, hh.cleared⟩
      obtain ⟨free', hg'⟩ := step_good s _ _ ⟨free, hg⟩ he
      exact placed_of_good hg' (by simp)
  dealloc := by
    intro b hb lists hl
    have he : lists = free := funext fun i => chain_unique (hl i) (hg.inv.chain i)
    subst he
    exact ⟨_, step_free hg hb, (good_free hg hb).inv.chain⟩

/-- Over every sequence of allocations, frees and stores, with any pattern of
page failures, the heap stays sound. -/
theorem heap_sound (mem : Mem) (ops : List Op) (s : State)
    (hr : run step (initial mem) ops = some s) : Sound s := by
  obtain ⟨free, hg⟩ := invariant step_good ⟨_, initial_good mem⟩ hr
  exact sound_of_good hg

def pageLayout : Layout := ⟨4096, 4096, 12, rfl⟩

def halfLayout : Layout := ⟨2048, 32, 5, rfl⟩

def quarterLayout : Layout := ⟨1000, 16, 4, rfl⟩

/-- Blocks of two classes, one of which is given back and a page that is not to be had. -/
def twoClasses : List Op :=
  [.alloc halfLayout (some 0x1000), .alloc quarterLayout (some 0x2000), .alloc halfLayout none,
    .alloc halfLayout none, .free ⟨0x1800, ⟨7, by decide⟩, halfLayout⟩, .alloc quarterLayout none]

theorem heap_sound_two_classes :
    ∃ s, run step (initial fun _ => 0) twoClasses = some s ∧
      s.live.map Block.slot = [(6, 0x2800), (7, 0x1000), (6, 0x2c00)] ∧ Sound s := by
  have h : (run step (initial fun _ => 0) twoClasses).map (fun s => s.live.map Block.slot) =
      some [(6, 0x2800), (7, 0x1000), (6, 0x2c00)] := by
    decide +kernel
  obtain ⟨s, hs, hlive⟩ := Option.map_eq_some_iff.mp h
  exact ⟨s, hs, hlive, heap_sound _ _ s hs⟩

end Crabos.Kalloc
