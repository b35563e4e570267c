import Crabos.Mem.PageRun

/-!
# Pages that are allocated and released

`AllocPage` gives every page of its range a frame of its own, and makes the
tables that are missing. `ReleasePage` of the same range puts these frames back
on the free list and leaves the tables.
-/
namespace Crabos.Page

open Crabos.Words Crabos.Radix Crabos.Interface Crabos.User Crabos.Run

variable {w w' : World}

/-- The frames of new tables, which the loaded PML4 leads to. -/
def NewTables (w w' : World) (tabs : List Nat) : Prop :=
  ∀ t ∈ tabs, t ∉ w.s.owners ∧
    ∃ is, is ≠ [] ∧ Way is ∧ find next w'.m.mem w'.m.cr3 is = some t

/-- Each page of the list has got the frame beside it. -/
structure Allocated (fl : Nat) (w w' : World) (ps : List (Nat × Nat)) : Prop where
  fit : Fit w'
  confined : Confined w w'
  distinct : (ps.map Prod.snd).Nodup
  frame : ∀ x ∈ ps, x.2 ∉ w.s.owners ∧ Phys.Managed w.m.phys.regions x.2 ∧ PAGE_SIZE ∣ x.2
  mapped : ∀ x ∈ ps, pageWord w'.m.mem w'.m.cr3 x.1 = some (x.2 ||| fl)
  zero : ∀ x ∈ ps, ∀ a, x.2 ≤ a → a < x.2 + PAGE_SIZE → w'.m.mem a = 0
  plain : ∀ x ∈ ps, w'.place x.2 = none
  other : ∀ v, pml4Index v < 511 → (∀ x ∈ ps, indices v ≠ indices x.1) →
    pageWord w'.m.mem w'.m.cr3 v = pageWord w.m.mem w.m.cr3 v
  kept : ∀ f ∈ w.s.owners, w.place f = none →
    w'.place f = none ∧ ∀ a, f ≤ a → a < f + PAGE_SIZE → w'.m.mem a = w.m.mem a
  finds : ∀ is t, Way is → find next w.m.mem w.m.cr3 is = some t →
    find next w'.m.mem w'.m.cr3 is = some t
  owners : ∃ tabs, w'.s.owners.Perm (tabs ++ (ps.map Prod.snd ++ w.s.owners)) ∧ NewTables w w' tabs

theorem Allocated.nil (hw : Fit w) (fl : Nat) : Allocated fl w w [] where
  fit := hw
  confined := .refl w
  distinct := List.nodup_nil
  frame _ hx := absurd hx List.not_mem_nil
  mapped _ hx := absurd hx List.not_mem_nil
  zero _ hx := absurd hx List.not_mem_nil
  plain _ hx := absurd hx List.not_mem_nil
  other _ _ _ := rfl
  kept _ _ hn := ⟨hn, fun _ _ _ => rfl⟩
  finds _ _ _ hf := hf
  owners := ⟨[], .refl _, fun _ ht => absurd ht List.not_mem_nil⟩

/-- One page. -/
theorem MapEnd.allocated {f virt fl : Nat} {q : Phys.PhysMem} (hw : Fit w) (hh : Handed w f q)
    (h : MapEnd (w.hand f q) f virt fl (.ok ()) w') (hfit : Fit w') (hconf : Confined w w')
    (hv : pml4Index virt < 256) : Allocated fl w w' [(virt, f)] := by
  have hself := h.self (by omega)
  have hcr3 : w'.m.cr3 = w.m.cr3 := h.same.1
  have hsame := hh.sameTables hw.inv
  have hplain : (w.hand f q).place f = none := hw.inv.unowned_no_table hh.unowned
  have hother : ∀ v, pml4Index v < 511 → indices v ≠ indices virt →
      pageWord w'.m.mem w'.m.cr3 v = pageWord w.m.mem w.m.cr3 v := by
    intro v hlt hne
    rw [hcr3]
    have hroot : (w.hand f q).place w.m.cr3 = some [] := hw.inv.loaded
    exact (h.other (by omega) hroot hlt fun _ => hne).trans (hsame.pageWord hw.inv hroot hlt)
  cases h with
  | @done w₁ t ext inv last empty =>
    have hl := inv.last (by omega) last
    have h1 := mapTo_oneSlot inv hl f fl
    have hframe : ∀ g ∈ (w.hand f q).s.owners, (w.hand f q).place g = none →
        w₁.place g = none ∧ ∀ a, g ≤ a → a < g + PAGE_SIZE →
          (w₁.mapTo t (pml1Index virt) f fl).m.mem a = (w.hand f q).m.mem a := by
      intro g hg hn
      obtain ⟨hn₁, hm₁⟩ := ext.frames g hg hn
      have hga : PAGE_SIZE ∣ g := by
        obtain ⟨free, hs⟩ := hh.inv.phys
        exact (hs.frame g hg).1
      exact ⟨hn₁, fun a h₁ h₂ =>
        (inv.write_outside hl.1 hl.2.2 hga hn₁ h₁ h₂ _).trans (hm₁ a h₁ h₂)⟩
    have hfown : f ∈ (w.hand f q).s.owners := List.mem_append_left _ List.mem_cons_self
    refine ⟨hfit, hconf, List.nodup_singleton f, ?_, ?_, ?_, ?_, ?_, ?_, ?_, ?_⟩
    · intro x hx
      rw [List.mem_singleton.mp hx]
      exact ⟨hh.unowned, hh.managed, hh.aligned⟩
    · intro x hx
      rw [List.mem_singleton.mp hx]
      exact hself
    · intro x hx a h₁ h₂
      rw [List.mem_singleton.mp hx] at h₁ h₂
      exact ((hframe f hfown hplain).2 a h₁ h₂).trans (hh.zero a h₁ h₂)
    · intro x hx
      rw [List.mem_singleton.mp hx]
      exact (hframe f hfown hplain).1
    · exact fun v hlt hne => hother v hlt (hne _ List.mem_cons_self)
    · intro g hg hn
      have hne : g ≠ f := by
        rintro rfl
        exact hh.unowned hg
      have hga : PAGE_SIZE ∣ g := by
        obtain ⟨free, hs⟩ := hw.inv.phys
        exact (hs.frame g hg).1
      obtain ⟨hn₁, hm₁⟩ := hframe g (List.mem_cons_of_mem _ hg) hn
      refine ⟨hn₁, fun a h₁ h₂ => (hm₁ a h₁ h₂).trans ?_⟩
      exact hh.outside a (Phys.frame_apart hh.aligned hga hne h₁ h₂)
    · intro is u hway hf
      have hf₁ : find next (w.hand f q).m.mem (w.hand f q).m.cr3 is = some u :=
        (hsame.find hw.inv hw.inv.loaded hway).trans hf
      refine (h1.find inv inv.loaded hway).trans ?_
      exact ext.finds is u hway hf₁
    · obtain ⟨tabs, hperm, hnew⟩ := ext.made
      refine ⟨tabs, ?_, fun u hu => ?_⟩
      · change (w₁.s.live.erase f ++ f :: w₁.s.raws).Perm _
        have hmem : f ∈ w₁.s.live := ext.live ▸ List.mem_cons_self
        exact (Phys.perm_intoRaw w₁.s.raws hmem).trans hperm
      · obtain ⟨hno, is, h0, hway, hf⟩ := hnew u hu
        refine ⟨fun hx => hno (List.mem_cons_of_mem _ hx), is, h0, hway, ?_⟩
        exact (h1.find inv inv.loaded hway).trans hf

/-- The frames of one page after those of others. -/
theorem Allocated.cons {fl : Nat} {w₁ w₂ w₃ : World} {x : Nat × Nat} {ps : List (Nat × Nat)}
    (h₁ : Allocated fl w₁ w₂ [x]) (h₂ : Allocated fl w₂ w₃ ps)
    (hx : pml4Index x.1 < 511) (hne : ∀ y ∈ ps, indices x.1 ≠ indices y.1) :
    Allocated fl w₁ w₃ (x :: ps) := by
  have hx₁ : x ∈ [x] := List.mem_singleton_self x
  obtain ⟨tabs₁, hp₁, hn₁⟩ := h₁.owners
  obtain ⟨tabs₂, hp₂, hn₂⟩ := h₂.owners
  have hown : ∀ f ∈ w₁.s.owners, f ∈ w₂.s.owners := fun f hf =>
    hp₁.mem_iff.mpr (List.mem_append_right _ (List.mem_append_right _ hf))
  have hxown : x.2 ∈ w₂.s.owners :=
    hp₁.mem_iff.mpr (List.mem_append_right _ (List.mem_append_left _ (List.mem_singleton_self _)))
  have hxkept := h₂.kept x.2 hxown (h₁.plain x hx₁)
  refine ⟨h₂.fit, h₁.confined.trans h₂.confined, ?_, ?_, ?_, ?_, ?_, ?_, ?_, ?_, ?_⟩
  · refine List.nodup_cons.mpr ⟨fun hm => ?_, h₂.distinct⟩
    obtain ⟨y, hy, he⟩ := List.mem_map.mp hm
    exact (h₂.frame y hy).1 (he ▸ hxown)
  · intro y hy
    rcases List.mem_cons.mp hy with rfl | hy
    · exact h₁.frame y hx₁
    · obtain ⟨hno, hm, ha⟩ := h₂.frame y hy
      exact ⟨fun hf => hno (hown _ hf), h₁.confined.regions ▸ hm, ha⟩
  · intro y hy
    rcases List.mem_cons.mp hy with rfl | hy
    · rw [h₂.other y.1 hx hne]
      exact h₁.mapped y hx₁
    · exact h₂.mapped y hy
  · intro y hy a ha hb
    rcases List.mem_cons.mp hy with rfl | hy
    · rw [hxkept.2 a ha hb]
      exact h₁.zero y hx₁ a ha hb
    · exact h₂.zero y hy a ha hb
  · intro y hy
    rcases List.mem_cons.mp hy with rfl | hy
    · exact hxkept.1
    · exact h₂.plain y hy
  · intro v hv hnot
    rw [h₂.other v hv fun y hy => hnot y (List.mem_cons_of_mem _ hy)]
    exact h₁.other v hv fun y hy => hnot y (List.mem_singleton.mp hy ▸ List.mem_cons_self)
  · intro f hf hn
    obtain ⟨hn₂', hm₂⟩ := h₁.kept f hf hn
    obtain ⟨hn₃, hm₃⟩ := h₂.kept f (hown f hf) hn₂'
    exact ⟨hn₃, fun a ha hb => (hm₃ a ha hb).trans (hm₂ a ha hb)⟩
  · exact fun is t hw hf => h₂.finds is t hw (h₁.finds is t hw hf)
  · refine ⟨tabs₂ ++ tabs₁, ?_, fun t ht => ?_⟩
    · rw [List.perm_iff_count]
      intro a
      have hc₁ := hp₁.count_eq a
      have hc₂ := hp₂.count_eq a
      simp only [List.count_append, List.map_cons, List.map_nil, List.count_cons,
        List.count_nil] at hc₁ hc₂ ⊢
      omega
    · rcases List.mem_append.mp ht with ht | ht
      · obtain ⟨hno, hf⟩ := hn₂ t ht
        exact ⟨fun hx => hno (hown t hx), hf⟩
      · obtain ⟨hno, is, h0, hw, hf⟩ := hn₁ t ht
        exact ⟨hno, is, h0, hw, h₂.finds is t hw hf⟩

/-- Page-aligned addresses of the user half are told apart by their indices. -/
theorem indices_user {u v : Nat} (hu : u < MAX_USER_ADDR ∧ PAGE_SIZE ∣ u)
    (hv : v < MAX_USER_ADDR ∧ PAGE_SIZE ∣ v) (h : indices u = indices v) : u = v := by
  simp only [indices, pml4Index, pml3Index, pml2Index, pml1Index, List.cons.injEq, and_true] at h
  simp only [MAX_USER_ADDR, PAGE_SIZE] at hu hv
  omega

/-- The loop of `alloc_page`, when it does not fail. -/
theorem allocPages_allocated {fl : Nat} {pages : List Nat} {x : Nat} {m' : Machine} (hw : Fit w)
    (hfl : fl < PAGE_SIZE) (huser : ∀ v ∈ pages, v < MAX_USER_ADDR ∧ PAGE_SIZE ∣ v)
    (hnd : pages.Nodup) (h : PageCalls.allocPages tables fl pages w.m = some (.ok x, m')) :
    ∃ w' ps, w'.m = m' ∧ ps.map Prod.fst = pages ∧ Allocated fl w w' ps := by
  induction pages generalizing w with
  | nil =>
    cases h
    exact ⟨w, [], rfl, rfl, .nil hw fl⟩
  | cons v rest ih =>
    obtain ⟨⟨r, m₁⟩, hm, h⟩ := Option.bind_eq_some_iff.mp h
    obtain ⟨hvuser, hvrest⟩ := List.forall_mem_cons.mp huser
    obtain ⟨hnot, hnd⟩ := List.nodup_cons.mp hnd
    have hv := user_index hvuser.1
    obtain ⟨w₁, rfl, hfit, hconf, hok⟩ := allocMap_step hw hv hfl hm
    cases r with
    | error e => cases h
    | ok u =>
      obtain ⟨f, q, hh, hend⟩ := hok rfl
      have hone := hend.allocated hw hh hfit hconf hv
      obtain ⟨w₂, ps, hm₂, hps, hrest⟩ := ih hfit hvrest hnd h
      refine ⟨w₂, (v, f) :: ps, hm₂, by rw [List.map_cons, hps], hone.cons hrest (Nat.lt_trans hv (by decide)) ?_⟩
      intro y hy he
      have hy : y.1 ∈ rest := hps ▸ List.mem_map_of_mem hy
      exact hnot (indices_user hvuser (hvrest y.1 hy) he ▸ hy)

/-! Release. -/

/-- The frames of the pages are free again, and nothing else has changed. -/
structure Freed (w w' : World) (ps : List (Nat × Nat)) : Prop where
  confined : Confined w w'
  freed : w'.s.freed = (ps.map Prod.snd).reverse ++ w.s.freed
  owners : (ps.map Prod.snd ++ w'.s.owners).Perm w.s.owners
  unmapped : ∀ x ∈ ps, pageWord w'.m.mem w'.m.cr3 x.1 = some 0
  other : ∀ v, pml4Index v < 511 → (∀ x ∈ ps, indices v ≠ indices x.1) →
    pageWord w'.m.mem w'.m.cr3 v = pageWord w.m.mem w.m.cr3 v
  finds : ∀ is t, Way is → find next w.m.mem w.m.cr3 is = some t →
    find next w'.m.mem w'.m.cr3 is = some t

/-- One page that is the only owner of its frame. -/
theorem unmap_freed {f virt fl : Nat} (hw : Fit w) (hv : pml4Index virt < 256)
    (hfl : fl < PAGE_SIZE) (ha : PAGE_SIZE ∣ f) (h0 : f ≠ 0)
    (hm : Phys.Managed w.m.phys.regions f) (hc : w.s.owners.count f = 1)
    (hword : pageWord w.m.mem w.m.cr3 virt = some (f ||| fl)) :
    ∃ w', tables.unmap w.m virt = some w'.m ∧ Fit w' ∧ Freed w w' [(virt, f)] := by
  have hne : f ||| fl ≠ 0 := fun hz => h0 (Nat.or_eq_zero_iff.mp hz).1
  obtain ⟨t, hf, he⟩ := find_of_pageWord hword hne
  have hframe : frame (w.m.mem (slot t (pml1Index virt))) = f := by
    rw [he, frame_or f hfl, frame_aligned ha]
  obtain ⟨m', hu⟩ := unmap_total hw.inv (by omega) hf (by rw [hframe]; exact h0) (.inl hw.temp)
  obtain ⟨w', rfl, hend⟩ := unmap_spec hw.inv (by omega) hu
  have hu' : tables.unmap w.m virt = some w'.m := by
    change (unmap w.m virt).bind expect = _
    rw [hu]
    rfl
  have hconf := hend.confined hw.inv hv
  have hself := hend.self hw.inv (by omega)
  have hst := hend.steady hw.inv (by omega) (hw.inv.user_not_temp hv)
  have hfit' := hst.fit hw
    (hst.sound hw.sound (hend.inv hw.inv (by omega)) (hend.full hw.inv (by omega) hw.full))
  have hcr3 : w'.m.cr3 = w.m.cr3 := hend.cr3
  have hother : ∀ v, pml4Index v < 511 → indices v ≠ indices virt →
      pageWord w'.m.mem w'.m.cr3 v = pageWord w.m.mem w.m.cr3 v := by
    intro v hlt hne
    rw [hcr3]
    exact hend.other hw.inv (by omega) hw.inv.loaded hlt hne
  refine ⟨w', hu', hfit', ?_⟩
  cases hend with
  | @done t' f' p last entry some managed dropped =>
    cases last.symm.trans hf
    rw [hframe] at entry
    subst entry
    have hl := hw.inv.last (by omega) last
    have hin : (t, pml1Index virt) ∈ w.slots :=
      (hw.inv.mapped t _).mpr ⟨⟨_, hl⟩, he ▸ hne, hframe ▸ hm⟩
    have hraw : f ∈ w.s.raws := hframe ▸ hw.inv.leaf_mem_raws hin
    have h1 := clear_oneSlot hw.inv hl dropped
    have hperm := Phys.perm_fromRaw w.s.live hraw
    refine ⟨hconf, ?_, ?_, ?_, ?_, ?_⟩
    · have hgone : f ∉ (f :: w.s.live).erase f ++ w.s.raws.erase f := by
        rw [List.erase_cons_head, ← List.count_eq_zero]
        have hcount := hperm.count_eq f
        rw [List.cons_append, List.count_cons_self] at hcount
        change w.s.owners.count f = 1 at hc
        rw [show (w.s.live ++ w.s.raws).count f = 1 from hc] at hcount
        omega
      have hm' : Phys.Managed w.s.p.regions f := hw.inv.same ▸ hm
      exact if_pos ⟨hm', hgone⟩
    · change (f :: ((f :: w.s.live).erase f ++ w.s.raws.erase f)).Perm w.s.owners
      rw [List.erase_cons_head]
      exact hperm
    · intro x hx
      rw [List.mem_singleton.mp hx]
      exact hself
    · exact fun v hlt hnot => hother v hlt (hnot _ List.mem_cons_self)
    · intro is u hway hfu
      exact (h1.find hw.inv hw.inv.loaded hway).trans hfu
  | foreign last some outside =>
    cases last.symm.trans hf
    exact absurd (hframe ▸ hm) outside

theorem Freed.cons {w₁ w₂ w₃ : World} {x : Nat × Nat} {ps : List (Nat × Nat)}
    (h₁ : Freed w₁ w₂ [x]) (h₂ : Freed w₂ w₃ ps) (hx : pml4Index x.1 < 511)
    (hne : ∀ y ∈ ps, indices x.1 ≠ indices y.1) : Freed w₁ w₃ (x :: ps) where
  confined := h₁.confined.trans h₂.confined
  freed := by
    rw [h₂.freed, h₁.freed]
    simp
  owners := by
    rw [List.perm_iff_count]
    intro a
    have hc₁ := h₁.owners.count_eq a
    have hc₂ := h₂.owners.count_eq a
    simp only [List.count_append, List.map_cons, List.map_nil, List.count_cons,
      List.count_nil] at hc₁ hc₂ ⊢
    omega
  unmapped y hy := by
    rcases List.mem_cons.mp hy with rfl | hy
    · rw [h₂.other y.1 hx hne]
      exact h₁.unmapped y (List.mem_singleton_self y)
    · exact h₂.unmapped y hy
  other v hv hnot := by
    rw [h₂.other v hv fun y hy => hnot y (List.mem_cons_of_mem _ hy)]
    exact h₁.other v hv fun y hy => hnot y (List.mem_singleton.mp hy ▸ List.mem_cons_self)
  finds is t hw hf := h₂.finds is t hw (h₁.finds is t hw hf)

/-- A page of the user half with the only reference to its frame. -/
structure OwnPage (fl : Nat) (w : World) (x : Nat × Nat) : Prop where
  user : x.1 < MAX_USER_ADDR ∧ PAGE_SIZE ∣ x.1
  aligned : PAGE_SIZE ∣ x.2
  nonzero : x.2 ≠ 0
  managed : Phys.Managed w.m.phys.regions x.2
  count : w.s.owners.count x.2 = 1
  word : pageWord w.m.mem w.m.cr3 x.1 = some (x.2 ||| fl)

/-- The loop of `release_page` on such pages. -/
theorem release_run {fl : Nat} {ps : List (Nat × Nat)} (hw : Fit w) (hfl : fl < PAGE_SIZE)
    (hown : ∀ x ∈ ps, OwnPage fl w x) (hpages : (ps.map Prod.fst).Nodup)
    (hframes : (ps.map Prod.snd).Nodup) :
    ∃ w', run tables.unmap w.m (ps.map Prod.fst) = some w'.m ∧ Fit w' ∧ Freed w w' ps := by
  induction ps generalizing w with
  | nil =>
    exact ⟨w, rfl, hw, .refl w, rfl, .refl _, fun _ hx => absurd hx List.not_mem_nil,
      fun _ _ _ => rfl, fun _ _ _ hf => hf⟩
  | cons x ps ih =>
    obtain ⟨hx, hrest⟩ := List.forall_mem_cons.mp hown
    obtain ⟨hpage, hpages⟩ := List.nodup_cons.mp hpages
    obtain ⟨hframe, hframes⟩ := List.nodup_cons.mp hframes
    have hv := user_index hx.user.1
    obtain ⟨w₁, hu, hfit, hone⟩ := unmap_freed hw hv hfl hx.aligned hx.nonzero hx.managed hx.count
      hx.word
    have hne : ∀ y ∈ ps, indices x.1 ≠ indices y.1 := by
      intro y hy he
      exact hpage (indices_user hx.user (hrest y hy).user he ▸ List.mem_map_of_mem hy)
    have hown₁ : ∀ y ∈ ps, OwnPage fl w₁ y := by
      intro y hy
      have hold := hrest y hy
      have hfne : x.2 ≠ y.2 := fun he => hframe (he ▸ List.mem_map_of_mem hy)
      refine ⟨hold.user, hold.aligned, hold.nonzero, hone.confined.regions ▸ hold.managed, ?_, ?_⟩
      · have hc := hone.owners.count_eq y.2
        rw [hold.count] at hc
        simpa [List.count_cons, hfne] using hc
      · rw [hone.other y.1 (Nat.lt_trans (user_index hold.user.1) (by decide)), hold.word]
        intro z hz
        rw [List.mem_singleton.mp hz]
        exact (hne y hy).symm
    obtain ⟨w₂, hrun, hfit₂, hfreed⟩ := ih hfit hown₁ hpages hframes
    refine ⟨w₂, ?_, hfit₂, hone.cons hfreed (Nat.lt_trans hv (by decide)) hne⟩
    rw [List.map_cons, run_cons, hu]
    exact hrun

/-! Both calls. -/

/-- The frames of the free list, from its head on. -/
def FreeList (p : Phys.PhysMem) (free : List Nat) : Prop :=
  Linked.Chain (Phys.readLink p.mem) p.nextFree free

theorem Inv.freeList (hi : Inv w) : FreeList w.m.phys w.s.freed := by
  obtain ⟨free, hs⟩ := hi.phys
  have hc := hs.chain
  rw [← hs.freed_eq, hi.same] at hc
  exact hc

theorem Inv.rc_eq (hi : Inv w) {f : Nat} (hm : Phys.Managed w.m.phys.regions f)
    (ha : PAGE_SIZE ∣ f) : w.m.phys.rc (f / PAGE_SIZE) = w.s.owners.count f := by
  obtain ⟨free, hs⟩ := hi.phys
  rw [← hi.same] at hm ⊢
  exact hs.counted f hm ha

theorem flags_of_entry {f fl : Nat} (ha : PAGE_SIZE ∣ f) (hfl : fl < PAGE_SIZE) :
    (f ||| fl) % PAGE_SIZE = fl := by
  have h := Nat.or_mod_two_pow (a := f) (b := fl) (n := 12)
  rw [show (2 : Nat) ^ 12 = PAGE_SIZE from rfl, Nat.mod_eq_zero_of_dvd ha, Nat.mod_eq_of_lt hfl,
    Nat.zero_or] at h
  exact h

/-- The pages that `AllocPage` has mapped can be released. -/
theorem Allocated.ownPage {fl : Nat} {ps : List (Nat × Nat)} (h : Allocated fl w w' ps)
    (hz : ¬ Phys.Managed w.m.phys.regions 0)
    (huser : ∀ x ∈ ps, x.1 < MAX_USER_ADDR ∧ PAGE_SIZE ∣ x.1) : ∀ x ∈ ps, OwnPage fl w' x := by
  intro x hx
  obtain ⟨hno, hm, ha⟩ := h.frame x hx
  obtain ⟨tabs, hperm, htabs⟩ := h.owners
  refine ⟨huser x hx, ha, fun he => hz (he ▸ hm), h.confined.regions ▸ hm, ?_, h.mapped x hx⟩
  have htab : x.2 ∉ tabs := by
    intro ht
    obtain ⟨-, is, -, hway, hf⟩ := htabs x.2 ht
    have hp := h.fit.inv.linked.placed.place_find h.fit.inv.loaded hway hf
    rw [h.plain x hx] at hp
    cases hp
  have hmem : x.2 ∈ ps.map Prod.snd := List.mem_map_of_mem hx
  rw [hperm.count_eq, List.count_append, List.count_append, List.count_eq_zero_of_not_mem htab,
    List.count_eq_one_of_mem h.distinct hmem, List.count_eq_zero_of_not_mem hno]

/-- What a successful `AllocPage` has done, page by page. -/
structure AllocDone (m m' : Machine) (fl : Nat) (ps : List (Nat × Nat)) : Prop where
  distinct : (ps.map Prod.snd).Nodup
  frame : ∀ x ∈ ps, Phys.Managed m.phys.regions x.2 ∧ PAGE_SIZE ∣ x.2 ∧
    m.phys.rc (x.2 / PAGE_SIZE) = 0
  mapped : ∀ x ∈ ps, pageWord m'.mem m'.cr3 x.1 = some (x.2 ||| fl)
  zero : ∀ x ∈ ps, ∀ a, x.2 ≤ a → a < x.2 + PAGE_SIZE → m'.mem a = 0
  other : ∀ u, pml4Index u < 511 → (∀ x ∈ ps, indices u ≠ indices x.1) →
    pageWord m'.mem m'.cr3 u = pageWord m.mem m.cr3 u

/-- What the following `ReleasePage` leaves: the frames on the free list, and
no other count than those of new tables differs from before the `AllocPage`. -/
structure ReleaseDone (m m' m'' : Machine) (ps : List (Nat × Nat)) : Prop where
  restored : ∀ u, pml4Index u < 511 → pageWord m''.mem m''.cr3 u = pageWord m.mem m.cr3 u
  freed : ∃ free, FreeList m'.phys free ∧ FreeList m''.phys ((ps.map Prod.snd).reverse ++ free)
  counts : ∃ tabs : List Nat,
    (∀ t ∈ tabs, ∃ is, is ≠ [] ∧ Way is ∧ find next m''.mem m''.cr3 is = some t) ∧
    (∀ f, Phys.Managed m.phys.regions f → PAGE_SIZE ∣ f →
      m''.phys.rc (f / PAGE_SIZE) = m.phys.rc (f / PAGE_SIZE) + tabs.count f ∧
      (f ∈ tabs → m.phys.rc (f / PAGE_SIZE) = 0))

theorem Allocated.done {fl : Nat} {ps : List (Nat × Nat)} (h : Allocated fl w w' ps) (hi : Inv w) :
    AllocDone w.m w'.m fl ps := by
  refine ⟨h.distinct, fun x hx => ?_, h.mapped, h.zero, h.other⟩
  obtain ⟨hno, hm, ha⟩ := h.frame x hx
  exact ⟨hm, ha, (hi.rc_eq hm ha).trans (List.count_eq_zero_of_not_mem hno)⟩

theorem Freed.done {fl : Nat} {ps : List (Nat × Nat)} {w₀ : World} (ha : Allocated fl w₀ w ps)
    (h : Freed w w' ps) (hi₀ : Inv w₀) (hi' : Inv w')
    (hfree : ∀ x ∈ ps, pageWord w₀.m.mem w₀.m.cr3 x.1 = some 0) :
    ReleaseDone w₀.m w.m w'.m ps where
  restored u hu := by
    by_cases hin : ∃ x ∈ ps, indices u = indices x.1
    · obtain ⟨x, hx, he⟩ := hin
      rw [pageWord_indices he, pageWord_indices he, h.unmapped x hx, hfree x hx]
    · have hnot : ∀ x ∈ ps, indices u ≠ indices x.1 := fun x hx he => hin ⟨x, hx, he⟩
      rw [h.other u hu hnot, ha.other u hu hnot]
  freed := by
    refine ⟨w.s.freed, ha.fit.inv.freeList, ?_⟩
    rw [← h.freed]
    exact hi'.freeList
  counts := by
    obtain ⟨tabs, hperm, htabs⟩ := ha.owners
    refine ⟨tabs, fun t ht => ?_, fun f hm hf => ⟨?_, fun hx => ?_⟩⟩
    · obtain ⟨-, is, h0, hway, hfind⟩ := htabs t ht
      exact ⟨is, h0, hway, h.finds is t hway hfind⟩
    · have hm' : Phys.Managed w'.m.phys.regions f := by
        rw [h.confined.regions, ha.confined.regions]
        exact hm
      have hc := hperm.count_eq f
      have hc' := h.owners.count_eq f
      rw [hi₀.rc_eq hm hf, hi'.rc_eq hm' hf]
      simp only [List.count_append] at hc hc'
      omega
    · rw [hi₀.rc_eq hm hf]
      exact List.count_eq_zero_of_not_mem (htabs f hx).1

theorem pageEntry_free {pages : List Nat} (hi : Inv w)
    (h : validateAvailable (tables.entry w.m) pages = some (.ok ())) :
    ∀ v ∈ pages, pageWord w.m.mem w.m.cr3 v = some 0 := by
  intro v hv
  rw [← hi.pageEntry_eq]
  exact validateAvailable_ok h v hv

/-- In any state that the kernel can reach, an `AllocPage` that returns OK maps
each page of its range to a frame of its own that had no owner and is all zero,
with the flags that were asked for. A `ReleasePage` of the range then returns
OK and undoes all of it but the new tables. -/
theorem allocPage_then_releasePage {frames : List Nat} {m m' : Machine} {evs : List Event}
    {k : Kernel} {v n bits x : Nat} (hb : Booted w frames)
    (hinit : initKernelPml4Entries w.m = some m)
    (hallowed : Along kernelStep Allowed ⟨m, [], frames⟩ evs)
    (hrun : run kernelStep ⟨m, [], frames⟩ evs = some k)
    (halloc : PageCalls.allocPage tables k.m v n bits = some (.ok x, m')) :
    ∃ fl ps m'', (bits = 0 ∧ fl = PageFlags.PRESENT ||| PageFlags.USER ∨
        bits = PageFlags.WRITE ∧ fl = PageFlags.PRESENT ||| PageFlags.USER ||| PageFlags.WRITE) ∧
      ps.map Prod.fst = PageRange.pages ⟨v, n⟩ ∧ AllocDone k.m m' fl ps ∧
      PageCalls.releasePage tables m' v n = some (.ok OK, m'') ∧ ReleaseDone k.m m' m'' ps := by
  obtain ⟨w₀, h₀⟩ := hb.run hinit hallowed hrun
  have hw := h₀.fit
  have hnonzero := h₀.nonzero
  obtain ⟨hm, -, -, -, -⟩ := h₀.holds
  rw [← hm] at halloc ⊢
  rcases PageCalls.allocPage_cases halloc with ⟨e, he, -⟩ | ⟨range, fl, hn, havail, hfl, hloop⟩
  · cases he
  obtain ⟨hpages, hnd⟩ := hw.sound.range_user hn (.inl havail)
  obtain ⟨rfl, -⟩ := PageRange.new_ok hn
  have hlt := userPageFlags_lt hfl
  obtain ⟨w₁, ps, rfl, hps, hall⟩ := allocPages_allocated hw hlt hpages hnd hloop
  have huser : ∀ y ∈ ps, y.1 < MAX_USER_ADDR ∧ PAGE_SIZE ∣ y.1 :=
    fun y hy => hpages y.1 (hps ▸ List.mem_map_of_mem hy)
  have hown := hall.ownPage hnonzero huser
  obtain ⟨w₂, hrel, hfit₂, hfreed⟩ := release_run hall.fit hlt hown (hps ▸ hnd) hall.distinct
  rw [hps] at hrel
  have hvalid : validateMap (tables.entry w₁.m) 0 (PageRange.pages ⟨v, n⟩) = some (.ok ()) := by
    refine validateMap_all fun u hu => ?_
    obtain ⟨y, hy, rfl⟩ := List.mem_map.mp (hps ▸ hu : u ∈ ps.map Prod.fst)
    refine ⟨y.2 ||| fl, ?_, fun hz => (hown y hy).nonzero (Nat.or_eq_zero_iff.mp hz).1, ?_⟩
    · exact (hall.fit.inv.pageEntry_eq y.1).trans (hall.mapped y hy)
    · rw [flags_of_entry (hown y hy).aligned hlt]
      exact (userPageFlags_known hfl).2
  have hrelease : PageCalls.releasePage tables w₁.m v n = some (.ok OK, w₂.m) := by
    rw [PageCalls.releasePage, hn]
    simp only [PageCalls.orFail, hvalid, Option.bind_some, hrel, Option.map_some]
  refine ⟨fl, ps, w₂.m, PageCalls.userPageFlags_ok hfl, hps, hall.done hw.inv, hrelease,
    hfreed.done hall hw.inv hfit₂.inv fun y hy => ?_⟩
  exact pageEntry_free hw.inv havail y.1 (hps ▸ List.mem_map_of_mem hy)

/-- Two pages beside video memory. -/
theorem allocPage_then_releasePage_boot :
    ∃ k m', run kernelStep ⟨bootWorld.m, [], []⟩
        [.call (.mapPhysicalMemory 0x10002000 0xb8000 1 0)] = some k ∧
      PageCalls.allocPage tables k.m 0x10000000 2 2 = some (.ok OK, m') ∧
      ∃ fl ps m'', (2 = 0 ∧ fl = PageFlags.PRESENT ||| PageFlags.USER ∨
          2 = PageFlags.WRITE ∧ fl = PageFlags.PRESENT ||| PageFlags.USER ||| PageFlags.WRITE) ∧
        ps.map Prod.fst = PageRange.pages ⟨0x10000000, 2⟩ ∧ AllocDone k.m m' fl ps ∧
        PageCalls.releasePage tables m' 0x10000000 2 = some (.ok OK, m'') ∧
        ReleaseDone k.m m' m'' ps := by
  have hev : (run kernelStep ⟨bootWorld.m, [], []⟩
      [.call (.mapPhysicalMemory 0x10002000 0xb8000 1 0)]).any (fun k =>
        (PageCalls.allocPage tables k.m 0x10000000 2 2).any
          fun x => decide (x.1.toOption = some OK)) = true := by
    decide +kernel
  obtain ⟨k, hk, hx⟩ := exists_of_any hev
  obtain ⟨⟨r, m'⟩, hc, hr⟩ := (Option.any_eq_true _ _).mp hx
  have hr : r = .ok OK := toOption_some (of_decide_eq_true hr)
  subst hr
  have hallowed : Along kernelStep Allowed ⟨bootWorld.m, [], []⟩
      [.call (.mapPhysicalMemory 0x10002000 0xb8000 1 0)] := by
    refine ⟨?_, ?_⟩
    · change ∀ f ∈ PageCalls.physPages 0xb8000 1, ¬ Phys.Managed [⟨0x1000000, 0x1010000⟩] f
      decide
    · cases kernelStep ⟨bootWorld.m, [], []⟩ (.call (.mapPhysicalMemory 0x10002000 0xb8000 1 0)) with
      | none => trivial
      | some k₁ => trivial
  exact ⟨k, m', hk, hc, allocPage_then_releasePage bootBooted
    (initKernelPml4Entries_full bootInv bootFull) hallowed hk hc⟩

end Crabos.Page
