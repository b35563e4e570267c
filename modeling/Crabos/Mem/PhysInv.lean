import Mathlib
import Crabos.Lib.Linked
import Crabos.Mem.Phys

/-!
# Owners, counts and free frames

The owners of a frame are the `Phys` values for it and the raw addresses that
no `from_raw` has taken back. The invariant ties the count of each frame to
its owners, and the free list to the frames that lost their last one.
-/
namespace Crabos.Phys

open Crabos.Words Crabos.Linked

/-- Some bump pointer has not yet reached the frame. -/
def Fresh (regions : List PhysRegion) (bump : List Nat) (f : Nat) : Prop :=
  ∃ rb ∈ regions.zip bump, rb.2 ≤ f ∧ f < rb.1.endAddr

/-- A bump pointer stands on a page of its region, or at its end. -/
structure BumpOk (r : PhysRegion) (b : Nat) : Prop where
  ge : r.beginAddr ≤ b
  le : b ≤ r.endAddr
  bump_aligned : PAGE_SIZE ∣ b
  end_aligned : PAGE_SIZE ∣ r.endAddr

/-- No address is in both regions. -/
def Apart (r r' : PhysRegion) : Prop :=
  r.endAddr ≤ r'.beginAddr ∨ r'.endAddr ≤ r.beginAddr

/-- Pages of a region are all below its end. -/
theorem page_le {f e : Nat} (hf : PAGE_SIZE ∣ f) (he : PAGE_SIZE ∣ e) (h : f < e) :
    f + PAGE_SIZE ≤ e := by
  obtain ⟨k, rfl⟩ := hf
  obtain ⟨n, rfl⟩ := he
  simp only [PAGE_SIZE] at *
  omega

/-- Distinct frames share no address. -/
theorem frame_apart {f g a : Nat} (hf : PAGE_SIZE ∣ f) (hg : PAGE_SIZE ∣ g) (hne : g ≠ f)
    (h₁ : g ≤ a) (h₂ : a < g + PAGE_SIZE) : ¬ (f ≤ a ∧ a < f + PAGE_SIZE) := by
  obtain ⟨k, rfl⟩ := hf
  obtain ⟨n, rfl⟩ := hg
  simp only [PAGE_SIZE] at *
  omega

theorem page_number_inj {f g : Nat} (hf : PAGE_SIZE ∣ f) (hg : PAGE_SIZE ∣ g)
    (h : f / PAGE_SIZE = g / PAGE_SIZE) : f = g := by
  rw [← Nat.div_mul_cancel hf, ← Nat.div_mul_cancel hg, h]

/-- A bump pointer stands on a page, at the beginning of its region or behind it. -/
structure BumpAt (r : PhysRegion) (b : Nat) : Prop where
  ge : r.beginAddr ≤ b
  bump_aligned : PAGE_SIZE ∣ b
  end_aligned : PAGE_SIZE ∣ r.endAddr

theorem BumpOk.bumpAt {r : PhysRegion} {b : Nat} (h : BumpOk r b) : BumpAt r b :=
  ⟨h.ge, h.bump_aligned, h.end_aligned⟩

/-- No address is in both regions, which may be empty. -/
def Unshared (r r' : PhysRegion) : Prop :=
  ∀ a, r.beginAddr ≤ a → a < r.endAddr → r'.beginAddr ≤ a → ¬ a < r'.endAddr

theorem Apart.unshared {r r' : PhysRegion} (h : Apart r r') : Unshared r r' := by
  intro a h₁ h₂ h₃
  rcases h with h | h
  · omega
  · omega

theorem fresh_region {regions : List PhysRegion} {bump : List Nat} {f : Nat}
    (hb : List.Forall₂ BumpAt regions bump) (h : Fresh regions bump f) : Managed regions f := by
  obtain ⟨⟨r, b⟩, hm, h₁, h₂⟩ := h
  exact ⟨r, (List.of_mem_zip hm).1, Nat.le_trans (List.forall₂_iff_zip.mp hb |>.2 hm).ge h₁, h₂⟩

theorem fresh_managed {regions : List PhysRegion} {bump : List Nat} {f : Nat}
    (hb : List.Forall₂ BumpOk regions bump) (h : Fresh regions bump f) : Managed regions f :=
  fresh_region (hb.imp fun _ _ h => h.bumpAt) h

theorem bumpNext_none {regions : List PhysRegion} {bump : List Nat}
    (h : bumpNext regions bump = none) : ∀ rb ∈ regions.zip bump, rb.1.endAddr ≤ rb.2 := by
  induction regions generalizing bump with
  | nil => simp
  | cons r regions ih =>
    cases bump with
    | nil => simp
    | cons b bump =>
      rw [bumpNext] at h
      split at h
      · rename_i hle
        have hn : bumpNext regions bump = none := by simpa using h
        intro rb hrb
        rcases List.mem_cons.mp hrb with rfl | hrb
        · exact hle
        · exact ih hn rb hrb
      · cases h

/-- A new frame is a page that its bump pointer had not reached, and no
pointer will meet it again. -/
theorem bumpNext_fresh {regions : List PhysRegion} {bump bump' : List Nat} {raw : Nat}
    (hb : List.Forall₂ BumpAt regions bump) (hd : regions.Pairwise Unshared)
    (h : bumpNext regions bump = some (raw, bump')) :
    List.Forall₂ BumpAt regions bump' ∧ PAGE_SIZE ∣ raw ∧ Fresh regions bump raw ∧
      ∀ f, Fresh regions bump' f → Fresh regions bump f ∧ f ≠ raw := by
  induction hb generalizing raw bump' with
  | nil => cases h
  | @cons r b regions bump hrb hb ih =>
    obtain ⟨hr, hd⟩ := List.pairwise_cons.mp hd
    rw [bumpNext] at h
    split at h
    · rename_i hle
      obtain ⟨⟨raw₁, bump₁⟩, hn, he⟩ := Option.map_eq_some_iff.mp h
      cases he
      obtain ⟨hb', ha, hf, hkeep⟩ := ih hd hn
      refine ⟨.cons hrb hb', ha, ?_, ?_⟩
      · obtain ⟨rb, hm, hx⟩ := hf
        exact ⟨rb, List.mem_cons_of_mem _ hm, hx⟩
      · rintro f ⟨rb, hm, hx⟩
        rcases List.mem_cons.mp hm with rfl | hm
        · have hlt := hx.2
          have hge := hx.1
          simp only at hlt hge
          omega
        · obtain ⟨⟨rb', hm', hx'⟩, hne⟩ := hkeep f ⟨rb, hm, hx⟩
          exact ⟨⟨rb', List.mem_cons_of_mem _ hm', hx'⟩, hne⟩
    · rename_i hlt
      cases h
      have hge := hrb.ge
      refine ⟨.cons ⟨Nat.le_trans hge (Nat.le_add_right _ _),
        (Nat.dvd_add_right hrb.bump_aligned).mpr (Nat.dvd_refl _), hrb.end_aligned⟩ hb,
        hrb.bump_aligned, ⟨(r, b), by simp, Nat.le_refl _, by simp only; omega⟩, ?_⟩
      rintro f ⟨rb, hm, hx⟩
      rcases List.mem_cons.mp hm with rfl | hm
      · obtain ⟨h₁, h₂⟩ := hx
        simp only [PAGE_SIZE] at h₁ h₂
        exact ⟨⟨(r, b), by simp, by simp only; omega, h₂⟩, by omega⟩
      · refine ⟨⟨rb, List.mem_cons_of_mem _ hm, hx⟩, ?_⟩
        -- the other region does not hold this region's bump pointer
        obtain ⟨hr', hb'⟩ := List.of_mem_zip hm
        have hge' := (List.forall₂_iff_zip.mp hb |>.2 hm).ge
        rintro rfl
        exact hr rb.1 hr' _ hge (by omega) (Nat.le_trans hge' hx.1) hx.2

/-- No bump pointer goes past the end of its region. -/
theorem bumpNext_le {regions : List PhysRegion} {bump bump' : List Nat} {raw : Nat}
    (hb : List.Forall₂ BumpOk regions bump) (h : bumpNext regions bump = some (raw, bump')) :
    List.Forall₂ (fun r b => b ≤ r.endAddr) regions bump' := by
  induction hb generalizing raw bump' with
  | nil => cases h
  | @cons r b regions bump hrb hb ih =>
    rw [bumpNext] at h
    split at h
    · obtain ⟨⟨raw₁, bump₁⟩, hn, he⟩ := Option.map_eq_some_iff.mp h
      cases he
      exact .cons hrb.le (ih hn)
    · cases h
      have hroom := page_le hrb.bump_aligned hrb.end_aligned (by omega)
      exact .cons hroom (hb.imp fun _ _ h => h.le)

theorem bumpNext_some {regions : List PhysRegion} {bump bump' : List Nat} {raw : Nat}
    (hb : List.Forall₂ BumpOk regions bump) (hd : regions.Pairwise Apart)
    (h : bumpNext regions bump = some (raw, bump')) :
    List.Forall₂ BumpOk regions bump' ∧ PAGE_SIZE ∣ raw ∧ Fresh regions bump raw ∧
      ∀ f, Fresh regions bump' f → Fresh regions bump f ∧ f ≠ raw := by
  obtain ⟨hat, hrest⟩ := bumpNext_fresh (hb.imp fun _ _ h => h.bumpAt)
    (hd.imp fun h => h.unshared) h
  have hle := bumpNext_le hb h
  refine ⟨?_, hrest⟩
  rw [List.forall₂_iff_zip] at hat hle ⊢
  refine ⟨hat.1, fun hm => ?_⟩
  have hz := hat.2 hm
  exact ⟨hz.ge, hle.2 hm, hz.bump_aligned, hz.end_aligned⟩

/-- `live` and `raws` have one entry for each owner. `allocated` lists the
frames that were handed out, `freed` those whose last owner was dropped and
that were not handed out again. -/
structure State where
  p : PhysMem
  live : List Nat
  raws : List Nat
  allocated : List Nat
  freed : List Nat

def State.owners (s : State) : List Nat := s.live ++ s.raws

/-- `write` is the owner of a frame storing a word in it. -/
inductive Op where
  | alloc
  | clone (f : Nat)
  | drop (f : Nat)
  | intoRaw (f : Nat)
  | fromRaw (f : Nat)
  | write (f a v : Nat)

/-- A `Phys` is used by its holder, and `from_raw` takes back one `into_raw`. -/
def Enabled (s : State) : Op → Prop
  | .alloc => True
  | .clone f => f ∈ s.live
  | .drop f => f ∈ s.live
  | .intoRaw f => f ∈ s.live
  | .fromRaw f => f ∈ s.raws
  | .write f a _ => f ∈ s.owners ∧ f ≤ a ∧ a < f + PAGE_SIZE

instance (s : State) : (op : Op) → Decidable (Enabled s op)
  | .alloc => inferInstanceAs (Decidable True)
  | .clone f => inferInstanceAs (Decidable (f ∈ s.live))
  | .drop f => inferInstanceAs (Decidable (f ∈ s.live))
  | .intoRaw f => inferInstanceAs (Decidable (f ∈ s.live))
  | .fromRaw f => inferInstanceAs (Decidable (f ∈ s.raws))
  | .write f a _ => inferInstanceAs (Decidable (f ∈ s.owners ∧ f ≤ a ∧ a < f + PAGE_SIZE))

/-- The frame has been handed out; the caller now holds a `Phys` for it. -/
def State.hand (s : State) (f : Nat) (q : PhysMem) : State where
  p := q
  live := f :: s.live
  raws := s.raws
  allocated := f :: s.allocated
  freed := s.freed.erase f

def exec (s : State) : Op → Except Panic State
  | .alloc => (alloc s.p).map fun
    | (.ok f, q) => s.hand f q
    | (.error _, q) => { s with p := q }
  | .clone f => (clone s.p f).map fun (g, q) => { s with p := q, live := g :: s.live }
  | .drop f => (drop s.p f).map fun q =>
    { s with
      p := q
      live := s.live.erase f
      freed := if Managed s.p.regions f ∧ f ∉ s.live.erase f ++ s.raws then f :: s.freed else s.freed }
  | .intoRaw f => .ok { s with live := s.live.erase f, raws := intoRaw f :: s.raws }
  | .fromRaw f => .ok { s with live := fromRaw f :: s.live, raws := s.raws.erase f }
  | .write _ a v => .ok { s with p := { s.p with mem := Function.update s.p.mem a v } }

def step (s : State) (op : Op) : Option State :=
  if Enabled s op then (exec s op).toOption else none

/-- Counts match owners and nothing has been freed yet. The bump pointers
stand above every frame that has an owner. -/
structure Start (s : State) : Prop where
  enabled : s.p.refCountEnabled = true
  aligned : ∀ r ∈ s.p.regions, PAGE_SIZE ∣ r.beginAddr ∧ PAGE_SIZE ∣ r.endAddr
  disjoint : s.p.regions.Pairwise Apart
  bump : List.Forall₂ BumpOk s.p.regions s.p.bumpAlloc
  frame : ∀ f ∈ s.owners, PAGE_SIZE ∣ f ∧ ¬ Fresh s.p.regions s.p.bumpAlloc f
  counted : ∀ f, Managed s.p.regions f → PAGE_SIZE ∣ f →
    s.p.rc (f / PAGE_SIZE) = s.owners.count f
  empty : s.p.nextFree = none
  allocated : ∀ f ∈ s.owners, f ∈ s.allocated
  freed : s.freed = []

structure Inv (s : State) (free : List Nat) : Prop where
  enabled : s.p.refCountEnabled = true
  disjoint : s.p.regions.Pairwise Apart
  bump : List.Forall₂ BumpOk s.p.regions s.p.bumpAlloc
  frame : ∀ f ∈ s.owners, PAGE_SIZE ∣ f ∧ ¬ Fresh s.p.regions s.p.bumpAlloc f ∧ f ∈ s.allocated
  counted : ∀ f, Managed s.p.regions f → PAGE_SIZE ∣ f →
    s.p.rc (f / PAGE_SIZE) = s.owners.count f
  chain : Chain (readLink s.p.mem) s.p.nextFree free
  freeable : ∀ f ∈ free, PAGE_SIZE ∣ f ∧ Managed s.p.regions f ∧
    ¬ Fresh s.p.regions s.p.bumpAlloc f ∧ f ∈ s.allocated ∧ f ∉ s.owners
  freed_eq : s.freed = free

theorem start_inv {s : State} (h : Start s) : Inv s [] where
  enabled := h.enabled
  disjoint := h.disjoint
  bump := h.bump
  frame := fun f hf => ⟨(h.frame f hf).1, (h.frame f hf).2, h.allocated f hf⟩
  counted := h.counted
  chain := h.empty
  freeable := by simp
  freed_eq := h.freed

theorem incRefForInit_eq {p : PhysMem} {f : Nat} (hf : PAGE_SIZE ∣ f)
    (hmax : Managed p.regions f → f ≤ MAX_PHYS_PAGE) :
    incRefForInit p f = .ok { p with
      rc := fun n => p.rc n + if Managed p.regions f ∧ f = n * PAGE_SIZE then 1 else 0 } := by
  by_cases hm : Managed p.regions f
  · have hle : f / PAGE_SIZE ≤ MAX_PHYS_PAGE / PAGE_SIZE := Nat.div_le_div_right (hmax hm)
    rw [incRefForInit, refCount, if_neg (not_not.mpr hm), if_neg (Nat.not_lt.mpr (hmax hm)),
      if_neg (Nat.not_lt.mpr hle)]
    have hrc : Function.update p.rc (f / PAGE_SIZE) (p.rc (f / PAGE_SIZE) + 1) =
        fun n => p.rc n + if Managed p.regions f ∧ f = n * PAGE_SIZE then 1 else 0 := by
      funext n
      by_cases hn : n = f / PAGE_SIZE
      · rw [hn, Function.update_self, if_pos ⟨hm, (Nat.div_mul_cancel hf).symm⟩]
      · have hne : ¬ (Managed p.regions f ∧ f = n * PAGE_SIZE) := by
          rintro ⟨-, rfl⟩
          exact hn (Nat.mul_div_cancel n (by decide)).symm
        rw [Function.update_of_ne hn, if_neg hne, Nat.add_zero]
    exact congrArg (fun rc => Except.ok { p with rc := rc }) hrc
  · rw [incRefForInit, refCount, if_pos hm]
    simp only [hm, false_and, if_false, Nat.add_zero]
    rfl

theorem incRefForInit_rc {p q : PhysMem} {f : Nat} (h : incRefForInit p f = .ok q) :
    ∃ rc, q = { p with rc := rc } := by
  rw [incRefForInit] at h
  cases hr : refCount p f with
  | error e =>
    rw [hr] at h
    cases h
  | ok o =>
    rw [hr] at h
    cases h
    cases o with
    | none => exact ⟨p.rc, rfl⟩
    | some n => exact ⟨_, rfl⟩

theorem incRefForInit_max {p q : PhysMem} {f : Nat} (h : incRefForInit p f = .ok q)
    (hm : Managed p.regions f) : f ≤ MAX_PHYS_PAGE := by
  rw [incRefForInit, refCount, if_neg (not_not.mpr hm)] at h
  split at h
  · cases h
  · rename_i hle
    exact Nat.not_lt.mp hle

theorem incRefForInit_ok {p q : PhysMem} {f : Nat} (hf : PAGE_SIZE ∣ f)
    (h : incRefForInit p f = .ok q) :
    ∃ rc, q = { p with rc := rc } ∧ ∀ g, Managed p.regions g → PAGE_SIZE ∣ g →
      rc (g / PAGE_SIZE) = p.rc (g / PAGE_SIZE) + if f = g then 1 else 0 := by
  rw [incRefForInit_eq hf (incRefForInit_max h)] at h
  cases h
  refine ⟨_, rfl, ?_⟩
  intro g hg ha
  rw [Nat.div_mul_cancel ha]
  by_cases hfg : f = g
  · subst hfg
    simp only [hg, and_self, if_true]
  · simp only [hfg, and_false, if_false]

/-- Every managed page has been counted as often as it is in the list, and no other one. -/
theorem foldlM_counts {p : PhysMem} {l : List Nat} (hl : ∀ f ∈ l, PAGE_SIZE ∣ f)
    (hmax : ∀ f ∈ l, Managed p.regions f → f ≤ MAX_PHYS_PAGE) :
    l.foldlM incRefForInit p = .ok { p with
      rc := fun n => p.rc n +
        if Managed p.regions (n * PAGE_SIZE) then l.count (n * PAGE_SIZE) else 0 } := by
  induction l generalizing p with
  | nil =>
    simp only [List.count_nil, ite_self, Nat.add_zero]
    rfl
  | cons f l ih =>
    rw [List.foldlM_cons, incRefForInit_eq (hl f List.mem_cons_self) (hmax f List.mem_cons_self)]
    have hrest := ih (p := { p with
        rc := fun n => p.rc n + if Managed p.regions f ∧ f = n * PAGE_SIZE then 1 else 0 })
      (fun g hg => hl g (List.mem_cons_of_mem f hg)) fun g hg => hmax g (List.mem_cons_of_mem f hg)
    have hrc : (fun n => (p.rc n + if Managed p.regions f ∧ f = n * PAGE_SIZE then 1 else 0) +
        if Managed p.regions (n * PAGE_SIZE) then l.count (n * PAGE_SIZE) else 0) =
        fun n => p.rc n +
          if Managed p.regions (n * PAGE_SIZE) then (f :: l).count (n * PAGE_SIZE) else 0 := by
      funext n
      rw [List.count_cons]
      by_cases hfn : f = n * PAGE_SIZE
      · subst hfn
        by_cases hm : Managed p.regions (n * PAGE_SIZE)
        · simp [hm]
          omega
        · simp [hm]
      · simp [hfn]
    rw [← hrc]
    exact hrest

/-- It is a panic to count a managed page above the table. -/
theorem foldlM_max {p q : PhysMem} {l : List Nat} (h : l.foldlM incRefForInit p = .ok q) :
    ∀ f ∈ l, Managed p.regions f → f ≤ MAX_PHYS_PAGE := by
  induction l generalizing p with
  | nil => exact fun f hf => absurd hf List.not_mem_nil
  | cons g l ih =>
    rw [List.foldlM_cons] at h
    cases hg : incRefForInit p g with
    | error e =>
      rw [hg] at h
      cases h
    | ok p' =>
      rw [hg] at h
      intro f hf hm
      cases hf with
      | head => exact incRefForInit_max hg hm
      | tail _ hf =>
        obtain ⟨rc, rfl⟩ := incRefForInit_rc hg
        exact ih h f hf hm

theorem new_ok {p q : PhysMem} {f f' : Nat} (he : p.refCountEnabled = true) (hf : PAGE_SIZE ∣ f)
    (h : new p f = .ok (f', q)) :
    f' = f ∧ ∃ rc, q = { p with rc := rc } ∧ ∀ g, Managed p.regions g → PAGE_SIZE ∣ g →
      rc (g / PAGE_SIZE) = p.rc (g / PAGE_SIZE) + if f = g then 1 else 0 := by
  rw [new, incRef, if_pos he] at h
  cases hi : incRefForInit p f with
  | error e =>
    rw [hi] at h
    cases h
  | ok p₁ =>
    rw [hi] at h
    cases h
    exact ⟨rfl, incRefForInit_ok hf hi⟩

theorem new_rc {p q : PhysMem} {f f' : Nat} (h : new p f = .ok (f', q)) :
    f' = f ∧ ∃ rc, q = { p with rc := rc } := by
  rw [new, incRef] at h
  split at h
  · cases hi : incRefForInit p f with
    | error e =>
      rw [hi] at h
      cases h
    | ok p₁ =>
      rw [hi] at h
      cases h
      exact ⟨rfl, incRefForInit_rc hi⟩
  · cases h
    exact ⟨rfl, p.rc, rfl⟩

/-- A panic about a frame of a region that reaches beyond the reference counts. -/
def Misplaced (regions : List PhysRegion) (e : Panic) : Prop :=
  e ≠ .decRefUnderflowed ∧ ∃ f, PAGE_SIZE ∣ f ∧ Managed regions f ∧ MAX_PHYS_PAGE < f

theorem refCount_error {p : PhysMem} {f : Nat} {e : Panic} (hf : PAGE_SIZE ∣ f)
    (h : refCount p f = .error e) : Misplaced p.regions e := by
  rw [refCount] at h
  split at h
  · cases h
  · rename_i hm
    have hm : Managed p.regions f := not_not.mp hm
    split at h
    · rename_i hmax
      cases h
      exact ⟨by decide, f, hf, hm, hmax⟩
    · split at h
      · rename_i hmax
        cases h
        refine ⟨by decide, f, hf, hm, ?_⟩
        exact Nat.lt_of_not_le fun hle => absurd (Nat.div_le_div_right hle) (Nat.not_le.mpr hmax)
      · cases h

theorem new_error {p : PhysMem} {f : Nat} {e : Panic} (hf : PAGE_SIZE ∣ f)
    (h : new p f = .error e) : Misplaced p.regions e := by
  rw [new, incRef] at h
  split at h
  · rw [incRefForInit] at h
    cases hr : refCount p f with
    | error e' =>
      rw [hr] at h
      cases h
      exact refCount_error hf hr
    | ok o =>
      rw [hr] at h
      cases h
  · cases h

/-- A counted frame never underflows; it is freed when its count was one. -/
theorem decRef_ok {p : PhysMem} {f : Nat} {r : Except Panic (PhysStatus × PhysMem)}
    (he : p.refCountEnabled = true) (hf : PAGE_SIZE ∣ f)
    (hpos : Managed p.regions f → 0 < p.rc (f / PAGE_SIZE)) (h : decRef p f = r) :
    (∃ e, r = .error e ∧ Misplaced p.regions e) ∨
    ∃ rc, (∀ g, Managed p.regions g → PAGE_SIZE ∣ g →
        rc (g / PAGE_SIZE) = p.rc (g / PAGE_SIZE) - if f = g then 1 else 0) ∧
      ((Managed p.regions f ∧ p.rc (f / PAGE_SIZE) = 1 ∧ r = .ok (.shouldFree, { p with rc := rc })) ∨
        (¬ (Managed p.regions f ∧ p.rc (f / PAGE_SIZE) = 1) ∧ r = .ok (.inUse, { p with rc := rc }))) := by
  rw [decRef, if_pos he] at h
  cases hr : refCount p f with
  | error e =>
    rw [hr] at h
    exact .inl ⟨e, h.symm, refCount_error hf hr⟩
  | ok o =>
  rw [hr] at h
  rw [refCount] at hr
  split at hr
  · rename_i hm
    cases hr
    refine .inr ⟨p.rc, ?_, .inr ⟨fun hx => hm hx.1, h.symm⟩⟩
    intro g hg _
    have hne : f ≠ g := by
      intro hfg
      exact hm (hfg ▸ hg)
    rw [if_neg hne, Nat.sub_zero]
  · rename_i hm
    have hm : Managed p.regions f := not_not.mp hm
    split at hr
    · cases hr
    · split at hr
      · cases hr
      · cases hr
        have hp := hpos hm
        simp only [Except.bind] at h
        rw [if_neg (by omega)] at h
        refine .inr ⟨Function.update p.rc (f / PAGE_SIZE) (p.rc (f / PAGE_SIZE) - 1), ?_, ?_⟩
        · intro g _ ha
          by_cases hfg : f = g
          · subst hfg
            simp
          · have hpn : g / PAGE_SIZE ≠ f / PAGE_SIZE := fun hn => hfg (page_number_inj hf ha hn.symm)
            simp [hfg, hpn]
        · by_cases hone : p.rc (f / PAGE_SIZE) = 1
          · rw [if_pos hone] at h
            exact .inl ⟨hm, hone, h.symm⟩
          · rw [if_neg hone] at h
            exact .inr ⟨fun hx => hone hx.2, h.symm⟩

theorem readLink_congr {m m' : Mem} {f : Nat}
    (h : ∀ a, f ≤ a → a < f + PAGE_SIZE → m' a = m a) : readLink m' f = readLink m f := by
  rw [readLink, readLink, h f (by omega) (by simp [PAGE_SIZE]),
    h (f + 8) (by omega) (by simp [PAGE_SIZE])]

theorem readLink_writeLink (m : Mem) (f : Nat) (next : Option Nat) :
    readLink (writeLink m f next) f = next := by
  cases next with
  | none => simp [readLink, writeLink]
  | some g => simp [readLink, writeLink]

theorem writeLink_outside (m : Mem) (f a : Nat) (next : Option Nat)
    (h : ¬ (f ≤ a ∧ a < f + PAGE_SIZE)) : writeLink m f next a = m a := by
  have h₁ : a ≠ f := by
    rintro rfl
    exact h ⟨Nat.le_refl _, by simp [PAGE_SIZE]⟩
  have h₂ : a ≠ f + 8 := by
    rintro rfl
    exact h ⟨by omega, by simp [PAGE_SIZE]⟩
  cases next with
  | none => simp [writeLink, h₁]
  | some g => simp [writeLink, h₁, h₂]

/-- The free list does not notice a change inside a frame that is not on it. -/
theorem chain_frame {m m' : Mem} {head : Option Nat} {free : List Nat} {f : Nat}
    (hf : PAGE_SIZE ∣ f) (hfree : ∀ g ∈ free, PAGE_SIZE ∣ g ∧ g ≠ f)
    (hm : ∀ a, ¬ (f ≤ a ∧ a < f + PAGE_SIZE) → m' a = m a)
    (hc : Chain (readLink m) head free) : Chain (readLink m') head free := by
  refine chain_congr ?_ hc
  intro g hg
  obtain ⟨ha, hne⟩ := hfree g hg
  exact readLink_congr fun a h₁ h₂ => hm a (frame_apart hf ha hne h₁ h₂)

theorem count_owners_cons (live raws : List Nat) (f g : Nat) :
    (f :: live ++ raws).count g = (live ++ raws).count g + if f = g then 1 else 0 := by
  rw [List.cons_append, List.count_cons]
  simp

theorem count_owners_erase {live : List Nat} (raws : List Nat) {f : Nat} (hf : f ∈ live) (g : Nat) :
    (live.erase f ++ raws).count g = (live ++ raws).count g - if f = g then 1 else 0 := by
  rw [← List.erase_append_left _ hf, List.count_erase]
  simp

/-- A frame with no owner gets its first one: it leaves the free list, if it was on it. -/
theorem inv_hand {s : State} {free rest : List Nat} {f : Nat} {bump : List Nat} {rc : Nat → Nat}
    {mem : Mem} {next : Option Nat} (hi : Inv s free) (hf : PAGE_SIZE ∣ f)
    (hold : ∀ g, Fresh s.p.regions bump g → Fresh s.p.regions s.p.bumpAlloc g ∧ g ≠ f)
    (hbump : List.Forall₂ BumpOk s.p.regions bump)
    (hrc : ∀ g, Managed s.p.regions g → PAGE_SIZE ∣ g →
      rc (g / PAGE_SIZE) = s.p.rc (g / PAGE_SIZE) + if f = g then 1 else 0)
    (hrest : ∀ g ∈ rest, g ∈ free ∧ g ≠ f) (herase : free.erase f = rest)
    (hchain : Chain (readLink mem) next rest) :
    Inv (s.hand f { s.p with bumpAlloc := bump, rc := rc, mem := mem, nextFree := next }) rest where
  enabled := hi.enabled
  disjoint := hi.disjoint
  bump := hbump
  frame := by
    intro g hg
    rcases List.mem_cons.mp hg with rfl | hg
    · exact ⟨hf, fun hx => (hold _ hx).2 rfl, List.mem_cons_self⟩
    · obtain ⟨ha, hn, hm⟩ := hi.frame g hg
      exact ⟨ha, fun hx => hn (hold g hx).1, List.mem_cons_of_mem _ hm⟩
  counted := by
    intro g hm ha
    change rc (g / PAGE_SIZE) = (f :: s.live ++ s.raws).count g
    rw [hrc g hm ha, hi.counted g hm ha, count_owners_cons]
    rfl
  chain := hchain
  freeable := by
    intro g hg
    obtain ⟨hg, hne⟩ := hrest g hg
    obtain ⟨ha, hm, hn, hal, ho⟩ := hi.freeable g hg
    refine ⟨ha, hm, fun hx => hn (hold g hx).1, List.mem_cons_of_mem _ hal, ?_⟩
    intro hx
    rcases List.mem_cons.mp hx with hx | hx
    · exact hne hx
    · exact ho hx
  freed_eq := by
    change s.freed.erase f = rest
    rw [hi.freed_eq, herase]

/-- An allocation takes the head of the free list, or else the next frame of a
region, or else every region is used up. Only a misplaced region panics. -/
theorem alloc_cases {s : State} {free : List Nat} (hi : Inv s free) :
    (∃ e, alloc s.p = .error e ∧ Misplaced s.p.regions e) ∨
    (alloc s.p = .ok (.error ⟨⟩, s.p) ∧ s.p.nextFree = none ∧
      ∀ rb ∈ s.p.regions.zip s.p.bumpAlloc, rb.1.endAddr ≤ rb.2) ∨
    ∃ f q rest, alloc s.p = .ok (.ok f, q) ∧ f ∉ s.owners ∧
      (∀ a, f ≤ a → a < f + PAGE_SIZE → q.mem a = 0) ∧
      Inv (s.hand f q) rest := by
  rw [alloc, allocFreelist]
  cases hn : s.p.nextFree with
  | none =>
    simp only [Except.bind, allocNew]
    cases hb : bumpNext s.p.regions s.p.bumpAlloc with
    | none => exact .inr (.inl ⟨rfl, trivial, bumpNext_none hb⟩)
    | some rb =>
      obtain ⟨raw, bump⟩ := rb
      obtain ⟨hbump, ha, hfresh, hold⟩ := bumpNext_some hi.bump hi.disjoint hb
      simp only
      cases hnew : new { s.p with bumpAlloc := bump } raw with
      | error e => exact .inl ⟨e, rfl, new_error (p := { s.p with bumpAlloc := bump }) ha hnew⟩
      | ok fq =>
        obtain ⟨f, q⟩ := fq
        obtain ⟨rfl, rc, rfl, hrc⟩ := new_ok (p := { s.p with bumpAlloc := bump }) hi.enabled ha hnew
        refine .inr (.inr ⟨f, _, free, rfl, ?_, ?_, ?_⟩)
        · exact fun ho => (hi.frame f ho).2.1 hfresh
        · exact fun a h₁ h₂ => zero_inside _ _ _ _ h₁ h₂
        · have hnot : f ∉ free := fun hx => (hi.freeable f hx).2.2.1 hfresh
          refine inv_hand hi ha hold hbump hrc ?_ (List.erase_of_not_mem hnot) ?_
          · intro g hg
            exact ⟨hg, fun he => hnot (he ▸ hg)⟩
          · have hc := hi.chain
            refine chain_frame ha ?_ (fun a h => zero_outside _ _ _ _ h) hc
            intro g hg
            exact ⟨(hi.freeable g hg).1, fun he => hnot (he ▸ hg)⟩
  | some raw =>
    have hc := hi.chain
    rw [hn] at hc
    cases free with
    | nil => cases hc
    | cons f rest =>
      obtain ⟨hraw, hrest⟩ := hc
      cases hraw
      obtain ⟨ha, -, hold, -, ho⟩ := hi.freeable raw (by simp)
      have hnd := (List.nodup_cons.mp (chain_nodup hi.chain)).1
      simp only
      cases hnew : new { s.p with nextFree := none } raw with
      | error e => exact .inl ⟨e, rfl, new_error (p := { s.p with nextFree := none }) ha hnew⟩
      | ok fq =>
        obtain ⟨f, q⟩ := fq
        obtain ⟨rfl, rc, rfl, hrc⟩ := new_ok (p := { s.p with nextFree := none }) hi.enabled ha hnew
        refine .inr (.inr ⟨f, _, rest, rfl, ho, ?_, ?_⟩)
        · exact fun a h₁ h₂ => zero_inside _ _ _ _ h₁ h₂
        · refine inv_hand hi ha ?_ hi.bump hrc ?_ (by simp) ?_
          · intro g hg
            exact ⟨hg, fun he => hold (he ▸ hg)⟩
          · intro g hg
            exact ⟨List.mem_cons_of_mem _ hg, fun he => hnd (he ▸ hg)⟩
          · refine chain_frame ha ?_ ?_ hrest
            · intro g hg
              exact ⟨(hi.freeable g (List.mem_cons_of_mem _ hg)).1, fun he => hnd (he ▸ hg)⟩
            · intro a h
              rw [zero_outside _ _ _ _ h, writeLink_outside _ _ _ _ h]

theorem perm_intoRaw {live : List Nat} (raws : List Nat) {f : Nat} (hf : f ∈ live) :
    (live.erase f ++ f :: raws).Perm (live ++ raws) :=
  List.perm_middle.trans ((List.perm_cons_erase hf).symm.append_right raws)

theorem perm_fromRaw (live : List Nat) {raws : List Nat} {f : Nat} (hf : f ∈ raws) :
    (f :: live ++ raws.erase f).Perm (live ++ raws) :=
  List.perm_middle.symm.trans ((List.perm_cons_erase hf).symm.append_left live)

/-- Owners may change hands and store in their frames. -/
theorem inv_owner {s t : State} {free : List Nat} (hi : Inv s free) (mem : Mem)
    (hp : t.p = { s.p with mem := mem }) (ho : t.owners.Perm s.owners)
    (ha : t.allocated = s.allocated) (hf : t.freed = s.freed)
    (hc : Chain (readLink mem) s.p.nextFree free) : Inv t free where
  enabled := by rw [hp]; exact hi.enabled
  disjoint := by rw [hp]; exact hi.disjoint
  bump := by rw [hp]; exact hi.bump
  frame := by
    intro f hx
    rw [hp, ha]
    exact hi.frame f (ho.mem_iff.mp hx)
  counted := by
    intro f hm hx
    rw [ho.count_eq, hp]
    rw [hp] at hm
    exact hi.counted f hm hx
  chain := by rw [hp]; exact hc
  freeable := by
    intro f hx
    rw [hp, ha, ho.mem_iff]
    exact hi.freeable f hx
  freed_eq := by rw [hf, hi.freed_eq]

theorem inv_intoRaw {s : State} {free : List Nat} {f : Nat} (hi : Inv s free) (hf : f ∈ s.live) :
    Inv { s with live := s.live.erase f, raws := f :: s.raws } free :=
  inv_owner hi s.p.mem rfl (perm_intoRaw s.raws hf) rfl rfl hi.chain

theorem inv_fromRaw {s : State} {free : List Nat} {f : Nat} (hi : Inv s free) (hf : f ∈ s.raws) :
    Inv { s with live := f :: s.live, raws := s.raws.erase f } free :=
  inv_owner hi s.p.mem rfl (perm_fromRaw s.live hf) rfl rfl hi.chain

/-- The contents of a frame that has an owner are not the allocator's. -/
theorem inv_contents {s : State} {free : List Nat} {f : Nat} {mem : Mem} (hi : Inv s free)
    (hf : f ∈ s.owners) (hout : ∀ a, ¬ (f ≤ a ∧ a < f + PAGE_SIZE) → mem a = s.p.mem a) :
    Inv { s with p := { s.p with mem := mem } } free := by
  refine inv_owner hi _ rfl (List.Perm.refl _) rfl rfl ?_
  refine chain_frame (hi.frame f hf).1 ?_ hout hi.chain
  intro g hg
  obtain ⟨hga, -, -, -, ho⟩ := hi.freeable g hg
  exact ⟨hga, fun hx => ho (hx ▸ hf)⟩

theorem inv_write {s : State} {free : List Nat} {f a : Nat} (hi : Inv s free) (hf : f ∈ s.owners)
    (h₁ : f ≤ a) (h₂ : a < f + PAGE_SIZE) (v : Nat) :
    Inv { s with p := { s.p with mem := Function.update s.p.mem a v } } free := by
  refine inv_contents hi hf fun b hb => Function.update_of_ne ?_ _ _
  rintro rfl
  exact hb ⟨h₁, h₂⟩

/-- A frame with an owner gets one more. -/
theorem inv_clone {s : State} {free : List Nat} {f : Nat} {rc : Nat → Nat} (hi : Inv s free)
    (hf : f ∈ s.owners)
    (hrc : ∀ g, Managed s.p.regions g → PAGE_SIZE ∣ g →
      rc (g / PAGE_SIZE) = s.p.rc (g / PAGE_SIZE) + if f = g then 1 else 0) :
    Inv { s with p := { s.p with rc := rc }, live := f :: s.live } free where
  enabled := hi.enabled
  disjoint := hi.disjoint
  bump := hi.bump
  frame := by
    intro g hg
    rcases List.mem_cons.mp hg with rfl | hg
    · exact hi.frame _ hf
    · exact hi.frame g hg
  counted := by
    intro g hm ha
    change rc (g / PAGE_SIZE) = (f :: s.live ++ s.raws).count g
    rw [hrc g hm ha, hi.counted g hm ha, count_owners_cons]
    rfl
  chain := hi.chain
  freeable := by
    intro g hg
    obtain ⟨ha, hm, hn, hal, ho⟩ := hi.freeable g hg
    refine ⟨ha, hm, hn, hal, ?_⟩
    intro hx
    rcases List.mem_cons.mp hx with rfl | hx
    · exact ho hf
    · exact ho hx
  freed_eq := hi.freed_eq

theorem mem_owners_erase {s : State} {f g : Nat} (h : g ∈ s.live.erase f ++ s.raws) :
    g ∈ s.owners := by
  rcases List.mem_append.mp h with h | h
  · exact List.mem_append_left _ (List.mem_of_mem_erase h)
  · exact List.mem_append_right _ h

/-- Dropping an owner: the last one puts a managed frame on the free list. -/
theorem exec_drop {s : State} {free : List Nat} {f : Nat} (hi : Inv s free) (hf : f ∈ s.live) :
    (∃ e, exec s (.drop f) = .error e ∧ Misplaced s.p.regions e) ∨
    ∃ t free', exec s (.drop f) = .ok t ∧ Inv t free' := by
  have hown : f ∈ s.owners := List.mem_append_left _ hf
  obtain ⟨ha, hold, hal⟩ := hi.frame f hown
  have hpos : 0 < s.owners.count f := List.count_pos_iff.mpr hown
  have hcount : ∀ g, (s.live.erase f ++ s.raws).count g = s.owners.count g - if f = g then 1 else 0 :=
    fun g => count_owners_erase s.raws hf g
  have hgone : f ∉ s.live.erase f ++ s.raws ↔ s.owners.count f = 1 := by
    rw [← List.count_eq_zero, hcount f, if_pos rfl]
    omega
  rw [exec, drop]
  rcases decRef_ok hi.enabled ha (fun hm => hi.counted f hm ha ▸ hpos) rfl with
    ⟨e, he, hne⟩ | ⟨rc, hrc, ⟨hm, hone, he⟩ | ⟨hmore, he⟩⟩
  · rw [he]
    exact .inl ⟨e, rfl, hne⟩
  · rw [he]
    rw [hi.counted f hm ha] at hone
    refine .inr ⟨_, f :: free, rfl, ?_⟩
    rw [if_pos ⟨hm, hgone.mpr hone⟩]
    have hnot : f ∉ free := fun hx => (hi.freeable f hx).2.2.2.2 hown
    refine ⟨hi.enabled, hi.disjoint, hi.bump, ?_, ?_, ?_, ?_, ?_⟩
    · exact fun g hg => hi.frame g (mem_owners_erase hg)
    · intro g hg hga
      change rc (g / PAGE_SIZE) = (s.live.erase f ++ s.raws).count g
      rw [hrc g hg hga, hi.counted g hg hga, hcount g]
    · refine ⟨rfl, ?_⟩
      change Chain (readLink (writeLink s.p.mem f s.p.nextFree))
        (readLink (writeLink s.p.mem f s.p.nextFree) f) free
      rw [readLink_writeLink]
      refine chain_frame ha ?_ (fun a h => writeLink_outside _ _ _ _ h) hi.chain
      exact fun g hg => ⟨(hi.freeable g hg).1, fun hx => hnot (hx ▸ hg)⟩
    · intro g hg
      rcases List.mem_cons.mp hg with rfl | hg
      · exact ⟨ha, hm, hold, hal, hgone.mpr hone⟩
      · obtain ⟨h₁, h₂, h₃, h₄, h₅⟩ := hi.freeable g hg
        exact ⟨h₁, h₂, h₃, h₄, fun hx => h₅ (mem_owners_erase hx)⟩
    · change f :: s.freed = f :: free
      rw [hi.freed_eq]
  · rw [he]
    refine .inr ⟨_, free, rfl, ?_⟩
    have hkeep : ¬ (Managed s.p.regions f ∧ f ∉ s.live.erase f ++ s.raws) := by
      rintro ⟨hm, hx⟩
      exact hmore ⟨hm, by rw [hi.counted f hm ha, hgone.mp hx]⟩
    rw [if_neg hkeep]
    refine ⟨hi.enabled, hi.disjoint, hi.bump, ?_, ?_, hi.chain, ?_, hi.freed_eq⟩
    · exact fun g hg => hi.frame g (mem_owners_erase hg)
    · intro g hg hga
      change rc (g / PAGE_SIZE) = (s.live.erase f ++ s.raws).count g
      rw [hrc g hg hga, hi.counted g hg hga, hcount g]
    · intro g hg
      obtain ⟨h₁, h₂, h₃, h₄, h₅⟩ := hi.freeable g hg
      exact ⟨h₁, h₂, h₃, h₄, fun hx => h₅ (mem_owners_erase hx)⟩

/-- The two places that a frame comes from. -/
theorem alloc_ok {p q : PhysMem} {f : Nat} (h : alloc p = .ok (.ok f, q)) :
    (∃ rc, p.nextFree = some f ∧ q = { p with
      rc := rc
      nextFree := readLink p.mem f
      mem := zero (writeLink p.mem f none) f PAGE_SIZE }) ∨
    ∃ bump rc, p.nextFree = none ∧ bumpNext p.regions p.bumpAlloc = some (f, bump) ∧
      q = { p with bumpAlloc := bump, rc := rc, mem := zero p.mem f PAGE_SIZE } := by
  rw [alloc, allocFreelist] at h
  cases hn : p.nextFree with
  | none =>
    rw [hn] at h
    simp only [Except.bind, allocNew] at h
    split at h
    · cases h
    · rename_i raw bump hb
      cases hnew : new { p with bumpAlloc := bump } raw with
      | error e =>
        rw [hnew] at h
        cases h
      | ok fq =>
        obtain ⟨g, q₁⟩ := fq
        obtain ⟨rfl, rc, rfl⟩ := new_rc hnew
        rw [hnew] at h
        cases h
        exact .inr ⟨bump, rc, rfl, hb, by rw [hn]⟩
  | some raw =>
    rw [hn] at h
    simp only at h
    cases hnew : new { p with nextFree := none } raw with
    | error e =>
      rw [hnew] at h
      cases h
    | ok fq =>
      obtain ⟨g, q₁⟩ := fq
      obtain ⟨rfl, rc, rfl⟩ := new_rc hnew
      rw [hnew] at h
      cases h
      exact .inl ⟨rc, rfl, rfl⟩

/-- Only frames of the regions are handed out. -/
theorem alloc_managed {s : State} {free : List Nat} {f : Nat} {q : PhysMem} (hi : Inv s free)
    (h : alloc s.p = .ok (.ok f, q)) : Managed s.p.regions f := by
  rcases alloc_ok h with ⟨rc, hn, -⟩ | ⟨bump, rc, -, hb, -⟩
  · have hc := hi.chain
    rw [hn] at hc
    cases free with
    | nil => cases hc
    | cons g rest =>
      cases hc.1
      exact (hi.freeable _ List.mem_cons_self).2.1
  · obtain ⟨-, -, hfresh, -⟩ := bumpNext_some hi.bump hi.disjoint hb
    exact fresh_managed hi.bump hfresh

/-- Outside of the frame that it hands out, an allocation leaves memory alone. -/
theorem alloc_outside {p q : PhysMem} {f : Nat} (h : alloc p = .ok (.ok f, q)) :
    q.regions = p.regions ∧ ∀ a, ¬ (f ≤ a ∧ a < f + PAGE_SIZE) → q.mem a = p.mem a := by
  rcases alloc_ok h with ⟨rc, -, rfl⟩ | ⟨bump, rc, -, -, rfl⟩
  · refine ⟨rfl, fun a ha => ?_⟩
    change zero (writeLink p.mem f none) f PAGE_SIZE a = p.mem a
    rw [zero_outside _ _ _ _ ha, writeLink_outside _ _ _ _ ha]
  · exact ⟨rfl, fun a ha => zero_outside _ _ _ _ ha⟩

/-- A drop writes to its own frame at most. -/
theorem drop_outside {p q : PhysMem} {f : Nat} (h : drop p f = .ok q) :
    q.regions = p.regions ∧ ∀ a, ¬ (f ≤ a ∧ a < f + PAGE_SIZE) → q.mem a = p.mem a := by
  have hdec : ∀ st q₁, decRef p f = .ok (st, q₁) → ∃ rc, q₁ = { p with rc := rc } := by
    intro st q₁ hd
    rw [decRef] at hd
    split at hd
    · cases hr : refCount p f with
      | error e =>
        rw [hr] at hd
        cases hd
      | ok o =>
        rw [hr] at hd
        cases o with
        | none =>
          cases hd
          exact ⟨p.rc, rfl⟩
        | some n =>
          simp only [Except.bind] at hd
          split at hd
          · cases hd
          · cases hd
            exact ⟨_, rfl⟩
    · cases hd
      exact ⟨p.rc, rfl⟩
  rw [drop] at h
  cases hd : decRef p f with
  | error e =>
    rw [hd] at h
    cases h
  | ok x =>
    obtain ⟨st, q₁⟩ := x
    obtain ⟨rc, rfl⟩ := hdec st q₁ hd
    rw [hd] at h
    cases st with
    | inUse =>
      cases h
      exact ⟨rfl, fun a _ => rfl⟩
    | shouldFree =>
      cases h
      exact ⟨rfl, fun a ha => writeLink_outside _ _ _ _ ha⟩

/-- One owner of the frame less; the last one puts it on the free list. -/
def State.dropped (s : State) (f : Nat) (q : PhysMem) : State :=
  { s with
    p := q
    live := s.live.erase f
    freed := if Managed s.p.regions f ∧ f ∉ s.live.erase f ++ s.raws then f :: s.freed else s.freed }

theorem inv_dropped {s : State} {free : List Nat} {f : Nat} {q : PhysMem} (hi : Inv s free)
    (hf : f ∈ s.live) (h : drop s.p f = .ok q) : ∃ free', Inv (s.dropped f q) free' := by
  rcases exec_drop hi hf with ⟨e, he, -⟩ | ⟨t, free', he, hinv⟩
  · rw [exec, h] at he
    cases he
  · rw [exec, h] at he
    cases he
    exact ⟨free', hinv⟩

/-- A drop that leaves an owner writes nothing. -/
theorem drop_shared {s : State} {free : List Nat} {f : Nat} {q : PhysMem} (hi : Inv s free)
    (hf : f ∈ s.live) (hown : f ∈ s.live.erase f ++ s.raws) (h : drop s.p f = .ok q) :
    q.mem = s.p.mem := by
  have ha : PAGE_SIZE ∣ f := (hi.frame f (List.mem_append_left _ hf)).1
  have hpos : 0 < s.owners.count f := List.count_pos_iff.mpr (List.mem_append_left _ hf)
  have hmore : 0 < s.owners.count f - 1 := by
    have h := count_owners_erase s.raws hf f
    rw [if_pos rfl] at h
    change _ = s.owners.count f - 1 at h
    rw [← h]
    exact List.count_pos_iff.mpr hown
  rw [drop] at h
  rcases decRef_ok hi.enabled ha (fun hm => hi.counted f hm ha ▸ hpos) rfl with
    ⟨e, he, -⟩ | ⟨rc, -, ⟨hm, hone, -⟩ | ⟨-, he⟩⟩
  · rw [he] at h
    cases h
  · rw [hi.counted f hm ha] at hone
    omega
  · rw [he] at h
    cases h
    rfl

/-- Frames outside of the regions have no count. -/
theorem drop_foreign {p : PhysMem} {f : Nat} (hf : ¬ Managed p.regions f) :
    decRef p f = .ok (.inUse, p) ∧ drop p f = .ok p := by
  have hd : decRef p f = .ok (.inUse, p) := by
    rw [decRef, refCount, if_pos hf]
    split
    · rfl
    · rfl
  refine ⟨hd, ?_⟩
  rw [drop, hd]
  rfl

theorem new_foreign {p : PhysMem} {f : Nat} (hf : ¬ Managed p.regions f) :
    new p f = .ok (f, p) := by
  rw [new, incRef, incRefForInit, refCount, if_pos hf]
  split
  · rfl
  · rfl

/-- Every operation keeps the invariant and none of them underflows a count. -/
theorem exec_inv {s : State} {free : List Nat} {op : Op} (hi : Inv s free) (he : Enabled s op) :
    (∃ e, exec s op = .error e ∧ e ≠ .decRefUnderflowed) ∨
    ∃ t free', exec s op = .ok t ∧ Inv t free' := by
  cases op with
  | alloc =>
    rcases alloc_cases hi with ⟨e, ha, hne⟩ | ⟨ha, -, -⟩ | ⟨f, q, rest, ha, -, -, hinv⟩
    · exact .inl ⟨e, by rw [exec, ha]; rfl, hne.1⟩
    · exact .inr ⟨s, free, by rw [exec, ha]; rfl, hi⟩
    · exact .inr ⟨_, rest, by rw [exec, ha]; rfl, hinv⟩
  | clone f =>
    have ha := (hi.frame f (List.mem_append_left _ he)).1
    rw [exec, clone]
    cases hn : new s.p f with
    | error e => exact .inl ⟨e, rfl, (new_error ha hn).1⟩
    | ok gq =>
      obtain ⟨g, q⟩ := gq
      obtain ⟨rfl, rc, rfl, hrc⟩ := new_ok hi.enabled ha hn
      exact .inr ⟨_, free, rfl, inv_clone hi (List.mem_append_left _ he) hrc⟩
  | drop f =>
    rcases exec_drop hi he with ⟨e, hx, hne⟩ | hx
    · exact .inl ⟨e, hx, hne.1⟩
    · exact .inr hx
  | intoRaw f => exact .inr ⟨_, free, rfl, inv_intoRaw hi he⟩
  | fromRaw f => exact .inr ⟨_, free, rfl, inv_fromRaw hi he⟩
  | write f a v => exact .inr ⟨_, free, rfl, inv_write hi he.1 he.2.1 he.2.2 v⟩

end Crabos.Phys
