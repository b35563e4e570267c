import Crabos.Lib.Run
import Crabos.Mem.PhysInv

/-!
# Runs of the frame allocator

Sequences of `alloc`, `clone`, `drop`, `into_raw` and `from_raw`, in which
only an owner can act on a frame, from a state in which every use of a frame
has been counted. The boot sequence ends in such a state.
-/
namespace Crabos.Phys

open Crabos.Words Crabos.Linked Crabos.Run

theorem step_inv (s : State) (op : Op) (t : State) (hi : ∃ free, Inv s free)
    (hs : step s op = some t) : ∃ free, Inv t free := by
  obtain ⟨free, hi⟩ := hi
  rw [step] at hs
  split at hs
  · rename_i he
    rcases exec_inv hi he with ⟨e, hx, -⟩ | ⟨u, free', hx, hinv⟩
    · rw [hx] at hs
      cases hs
    · rw [hx] at hs
      cases hs
      exact ⟨free', hinv⟩
  · cases hs

/-- What every reachable allocator promises. -/
structure Sound (s : State) : Prop where
  counted : ∀ f, Managed s.p.regions f → PAGE_SIZE ∣ f →
    s.p.rc (f / PAGE_SIZE) = s.owners.count f
  list : ∃ free, Chain (readLink s.p.mem) s.p.nextFree free ∧ free.Nodup ∧
    (∀ f ∈ free, f ∈ s.allocated ∧ Managed s.p.regions f ∧ s.p.rc (f / PAGE_SIZE) = 0) ∧
    ∀ f ∈ s.freed, f ∈ free
  alloc_ok : ∀ f q, alloc s.p = .ok (.ok f, q) →
    f ∉ s.owners ∧ ∀ a, f ≤ a → a < f + PAGE_SIZE → q.mem a = 0
  alloc_exhausted : ∀ e q, alloc s.p = .ok (.error e, q) →
    s.p.nextFree = none ∧ ∀ rb ∈ s.p.regions.zip s.p.bumpAlloc, rb.1.endAddr ≤ rb.2
  no_underflow : ∀ op, Enabled s op → exec s op ≠ .error .decRefUnderflowed

theorem sound_of_inv {s : State} {free : List Nat} (hi : Inv s free) : Sound s where
  counted := hi.counted
  list := by
    refine ⟨free, hi.chain, chain_nodup hi.chain, ?_, ?_⟩
    · intro f hf
      obtain ⟨ha, hm, -, hal, ho⟩ := hi.freeable f hf
      exact ⟨hal, hm, by rw [hi.counted f hm ha, List.count_eq_zero.mpr ho]⟩
    · intro f hf
      rwa [hi.freed_eq] at hf
  alloc_ok := by
    intro f q h
    rcases alloc_cases hi with ⟨e, ha, -⟩ | ⟨ha, -, -⟩ | ⟨g, q', rest, ha, ho, hz, -⟩
    · rw [ha] at h
      cases h
    · rw [ha] at h
      cases h
    · rw [ha] at h
      cases h
      exact ⟨ho, hz⟩
  alloc_exhausted := by
    intro e q h
    rcases alloc_cases hi with ⟨e', ha, -⟩ | ⟨-, hn, hb⟩ | ⟨g, q', rest, ha, -, -, -⟩
    · rw [ha] at h
      cases h
    · exact ⟨hn, hb⟩
    · rw [ha] at h
      cases h
  no_underflow := by
    intro op he h
    rcases exec_inv hi he with ⟨e, hx, hne⟩ | ⟨t, free', hx, -⟩
    · rw [hx] at h
      cases h
      exact hne rfl
    · rw [hx] at h
      cases h

/-- Every sequence of operations from a counted start keeps counts, free list
and bump pointers in step with the owners. -/
theorem phys_sound (s₀ : State) (h₀ : Start s₀) (ops : List Op) (s : State)
    (hr : run step s₀ ops = some s) : Sound s := by
  obtain ⟨free, hi⟩ := invariant step_inv ⟨[], start_inv h₀⟩ hr
  exact sound_of_inv hi

/-- Two frames: the first is shared, given up twice and handed out again. -/
def twoFrames : State where
  p := ⟨[⟨0x1000, 0x3000⟩], [0x1000], true, none, fun _ => 0, fun _ => 7⟩
  live := []
  raws := []
  allocated := []
  freed := []

theorem twoFrames_start : Start twoFrames where
  enabled := rfl
  aligned := by decide
  disjoint := List.pairwise_singleton _ _
  bump := .cons ⟨by decide, by decide, by decide, by decide⟩ .nil
  frame := by simp [twoFrames, State.owners]
  counted := fun _ _ _ => rfl
  empty := rfl
  allocated := by decide
  freed := rfl

theorem twoFrames_sound :
    ∃ s, run step twoFrames [.alloc, .clone 0x1000, .drop 0x1000, .intoRaw 0x1000,
      .fromRaw 0x1000, .drop 0x1000, .alloc] = some s ∧ Sound s := by
  have h : (run step twoFrames [.alloc, .clone 0x1000, .drop 0x1000, .intoRaw 0x1000,
      .fromRaw 0x1000, .drop 0x1000, .alloc]).isSome := by decide
  obtain ⟨s, hs⟩ := Option.isSome_iff_exists.mp h
  exact ⟨s, hs, phys_sound _ twoFrames_start _ s hs⟩

/-- While booting nothing is counted and dropped frames are not reused. -/
structure Booting (s : State) : Prop where
  disabled : s.p.refCountEnabled = false
  aligned : ∀ r ∈ s.p.regions, PAGE_SIZE ∣ r.beginAddr ∧ PAGE_SIZE ∣ r.endAddr
  disjoint : s.p.regions.Pairwise Apart
  bump : List.Forall₂ BumpOk s.p.regions s.p.bumpAlloc
  frame : ∀ f ∈ s.owners, PAGE_SIZE ∣ f ∧ ¬ Fresh s.p.regions s.p.bumpAlloc f ∧ f ∈ s.allocated
  uncounted : ∀ n, s.p.rc n = 0
  empty : s.p.nextFree = none

/-- The allocator as `phys_init` leaves it: the bump pointers stand at the
start of their regions, and only memory outside of them is in use. -/
theorem booting_init (regions : List PhysRegion) (low : List Nat) (mem : Mem)
    (hr : ∀ r ∈ regions, PAGE_SIZE ∣ r.beginAddr ∧ PAGE_SIZE ∣ r.endAddr ∧ r.beginAddr ≤ r.endAddr)
    (hd : regions.Pairwise Apart) (hl : ∀ f ∈ low, PAGE_SIZE ∣ f ∧ ¬ Managed regions f) :
    Booting ⟨⟨regions, regions.map PhysRegion.beginAddr, false, none, fun _ => 0, mem⟩,
      [], low, low, []⟩ := by
  have hb : List.Forall₂ BumpOk regions (regions.map PhysRegion.beginAddr) := by
    rw [List.forall₂_map_right_iff, List.forall₂_same]
    intro r hm
    obtain ⟨h₁, h₂, h₃⟩ := hr r hm
    exact ⟨Nat.le_refl _, h₃, h₁, h₂⟩
  refine ⟨rfl, fun r hm => ⟨(hr r hm).1, (hr r hm).2.1⟩, hd, hb, ?_, fun _ => rfl, rfl⟩
  intro f hf
  exact ⟨(hl f hf).1, fun hx => (hl f hf).2 (fresh_managed hb hx), hf⟩

theorem booting_step (s : State) (op : Op) (t : State) (hb : Booting s)
    (hs : step s op = some t) : Booting t := by
  have hnew : ∀ (p : PhysMem) f, p.refCountEnabled = false → new p f = .ok (f, p) := by
    intro p f hp
    rw [new, incRef, hp]
    rfl
  have hdec : ∀ f, decRef s.p f = .ok (.inUse, s.p) := by
    intro f
    rw [decRef, hb.disabled]
    rfl
  rw [step] at hs
  split at hs
  · rename_i he
    cases op with
    | alloc =>
      rw [exec, alloc, allocFreelist, hb.empty] at hs
      simp only [Except.bind, allocNew] at hs
      cases hn : bumpNext s.p.regions s.p.bumpAlloc with
      | none =>
        rw [hn] at hs
        cases hs
        exact hb
      | some rb =>
        obtain ⟨raw, bump⟩ := rb
        obtain ⟨hbump, ha, hfresh, hold⟩ := bumpNext_some hb.bump hb.disjoint hn
        rw [hn] at hs
        simp only at hs
        rw [hnew { s.p with bumpAlloc := bump } raw hb.disabled] at hs
        cases hs
        refine ⟨hb.disabled, hb.aligned, hb.disjoint, hbump, ?_, hb.uncounted, hb.empty⟩
        intro g hg
        rcases List.mem_cons.mp hg with rfl | hg
        · exact ⟨ha, fun hx => (hold _ hx).2 rfl, List.mem_cons_self⟩
        · obtain ⟨h₁, h₂, h₃⟩ := hb.frame g hg
          exact ⟨h₁, fun hx => h₂ (hold g hx).1, List.mem_cons_of_mem _ h₃⟩
    | clone f =>
      rw [exec, clone, hnew _ _ hb.disabled] at hs
      cases hs
      refine ⟨hb.disabled, hb.aligned, hb.disjoint, hb.bump, ?_, hb.uncounted, hb.empty⟩
      intro g hg
      rcases List.mem_cons.mp hg with rfl | hg
      · exact hb.frame _ (List.mem_append_left _ he)
      · exact hb.frame g hg
    | drop f =>
      rw [exec, drop, hdec] at hs
      cases hs
      exact ⟨hb.disabled, hb.aligned, hb.disjoint, hb.bump,
        fun g hg => hb.frame g (mem_owners_erase hg), hb.uncounted, hb.empty⟩
    | intoRaw f =>
      cases hs
      refine ⟨hb.disabled, hb.aligned, hb.disjoint, hb.bump, ?_, hb.uncounted, hb.empty⟩
      intro g hg
      refine hb.frame g ((perm_intoRaw s.raws he).mem_iff.mp hg)
    | fromRaw f =>
      cases hs
      refine ⟨hb.disabled, hb.aligned, hb.disjoint, hb.bump, ?_, hb.uncounted, hb.empty⟩
      intro g hg
      refine hb.frame g ((perm_fromRaw s.live he).mem_iff.mp hg)
    | write f a v =>
      cases hs
      exact ⟨hb.disabled, hb.aligned, hb.disjoint, hb.bump, hb.frame, hb.uncounted, hb.empty⟩
  · cases hs

theorem foldlM_incRefForInit {p q : PhysMem} {l : List Nat} (hl : ∀ f ∈ l, PAGE_SIZE ∣ f)
    (h : l.foldlM incRefForInit p = .ok q) :
    ∃ rc, q = { p with rc := rc } ∧ ∀ g, Managed p.regions g → PAGE_SIZE ∣ g →
      rc (g / PAGE_SIZE) = p.rc (g / PAGE_SIZE) + l.count g := by
  rw [foldlM_counts hl (foldlM_max h)] at h
  cases h
  refine ⟨_, rfl, ?_⟩
  intro g hm ha
  rw [Nat.div_mul_cancel ha, if_pos hm]

/-- Once every use of a frame has been counted, the allocator can start. -/
theorem start_of_boot {s : State} {eachPhys : List Nat} {cr3 : Nat} {q : PhysMem} (hb : Booting s)
    (ha : ∀ f ∈ eachPhys ++ [cr3], PAGE_SIZE ∣ f)
    (hc : ∀ f, Managed s.p.regions f → (eachPhys ++ [cr3]).count f = s.owners.count f)
    (hq : initRefCounts s.p eachPhys cr3 = .ok q) : Start { s with p := q, freed := [] } := by
  rw [initRefCounts] at hq
  cases hf : (eachPhys ++ [cr3]).foldlM incRefForInit s.p with
  | error e =>
    rw [hf] at hq
    cases hq
  | ok p =>
    rw [hf] at hq
    cases hq
    obtain ⟨rc, rfl, hrc⟩ := foldlM_incRefForInit ha hf
    refine ⟨rfl, hb.aligned, hb.disjoint, hb.bump, ?_, ?_, hb.empty, ?_, rfl⟩
    · exact fun f hx => ⟨(hb.frame f hx).1, (hb.frame f hx).2.1⟩
    · intro f hm hx
      change rc (f / PAGE_SIZE) = s.owners.count f
      rw [hrc f hm hx, hb.uncounted, Nat.zero_add, hc f hm]
    · exact fun f hx => (hb.frame f hx).2.2

end Crabos.Phys
