import Crabos.Mem.SpaceRun

/-!
# Isolation of address spaces

A frame of the allocator is mapped by one page, of one page context if it is a
page of the user half, and it is not held by code then. So what a run does while
other page contexts are loaded, or to other pages, changes neither the entry of
a user page nor the bytes behind it.
-/
namespace Crabos.Page

open Crabos.Words Crabos.Radix Crabos.Interface Crabos.User Crabos.Run

variable {w w' : World}

/-! The bytes of other frames. -/

section untouched

variable {f g virt fl : Nat}

/-- A frame that has an owner and is no table. -/
def Held (w : World) (g : Nat) : Prop := g ∈ w.s.owners ∧ w.place g = none

theorem Inv.aligned_owner (hi : Inv w) (hg : g ∈ w.s.owners) : PAGE_SIZE ∣ g := by
  obtain ⟨free, hphys⟩ := hi.phys
  exact (hphys.frame g hg).1

theorem Ext.held {h : Half} (he : Ext h w w') (hg : Held w g) : Held w' g :=
  ⟨he.owners hg.1, (he.frames g hg.1 hg.2).1⟩

theorem Ext.untouched {h : Half} (he : Ext h w w') (hg : Held w g) :
    Untouched w.m.mem w'.m.mem g := (he.frames g hg.1 hg.2).2

theorem Inv.write_untouched (hi : Inv w) {t i : Nat} {p : List Nat}
    (hl : w.place t = some p ∧ p.length = 3 ∧ i < 512) (hg : Held w g) (v : Nat) :
    Untouched w.m.mem (w.write (slot t i) v).m.mem g :=
  fun _ ha hb => hi.write_outside hl.1 hl.2.2 (hi.aligned_owner hg.1) hg.2 ha hb v

theorem Handed.untouched {q : Phys.PhysMem} (hh : Handed w f q) (hi : Inv w) (hg : Held w g) :
    Untouched w.m.mem q.mem g := by
  refine untouched_of_outside (hi.aligned_owner hg.1) hh.aligned ?_ hh.outside
  rintro rfl
  exact hh.unowned hg.1

theorem Handed.held {q : Phys.PhysMem} (hg : Held w g) : Held (w.hand f q) g := by
  refine ⟨?_, hg.2⟩
  rcases List.mem_append.mp hg.1 with hl | hr
  · exact List.mem_append_left _ (List.mem_cons_of_mem _ hl)
  · exact List.mem_append_right _ hr

theorem MapEnd.untouched {r : Except MapError Unit} (h : MapEnd w f virt fl r w') (hi : Inv w)
    (hv : pml4Index virt < 511) (hf : f ∈ w.s.owners) (hg : Held w g) (hne : g ≠ f) :
    Untouched w.m.mem w'.m.mem g := by
  cases h with
  | done ext inv last empty =>
    exact (ext.untouched hg).trans (inv.write_untouched (inv.last hv last) (ext.held hg) _)
  | fails ext inv dropped used =>
    exact (ext.untouched hg).trans
      (untouched_of_outside (hi.aligned_owner hg.1) (hi.aligned_owner hf) hne dropped.outside)

theorem MapForeignEnd.untouched {r : Except MapError Unit} (h : MapForeignEnd w f virt fl r w')
    (hv : pml4Index virt < 511) (hg : Held w g) : Untouched w.m.mem w'.m.mem g := by
  cases h with
  | done ext inv last empty =>
    exact (ext.untouched hg).trans (inv.write_untouched (inv.last hv last) (ext.held hg) _)
  | fails ext inv e => exact ext.untouched hg

/-- The frame of another entry is given up. -/
theorem UnmapEnd.untouched {r : Except NotMapped Unit} (h : UnmapEnd w virt r w') (hi : Inv w)
    (hv : pml4Index virt < 511) (hg : Held w g)
    (hne : ∀ e, pageWord w.m.mem w.m.cr3 virt = some e → Maps w.m.phys.regions e → frame e ≠ g) :
    Untouched w.m.mem w'.m.mem g := by
  cases h with
  | fails word none => exact .refl _ _
  | @done t f p last entry some managed dropped =>
    have hl := hi.last hv last
    have hword := hi.linked.pageWord_eq hi.loaded hv
    rw [last, Option.elim_some] at hword
    subst entry
    have h0 : w.m.mem (slot t (pml1Index virt)) ≠ 0 := by
      intro hz
      exact some (by rw [hz]; rfl)
    have hfg := hne _ hword ⟨h0, managed⟩
    have hdrop : Untouched w.m.mem p.mem g :=
      untouched_of_outside (hi.aligned_owner hg.1) (dvd_frame _) hfg.symm dropped.outside
    refine hdrop.trans fun a ha hb => Function.update_of_ne ?_ _ _
    rintro rfl
    exact hi.slot_outside (hi.aligned_owner hg.1) hg.2 hl.1 hl.2.2 ⟨ha, hb⟩
  | foreign last some outside => exact hi.write_untouched (hi.last hv last) hg 0

theorem ModifyEnd.untouched {r : Except NotMapped Unit} (h : ModifyEnd w virt fl r w') (hi : Inv w)
    (hv : pml4Index virt < 511) (hg : Held w g) : Untouched w.m.mem w'.m.mem g := by
  cases h with
  | fails word => exact .refl _ _
  | done last entry some => exact hi.write_untouched (hi.last hv last) hg _

theorem AllocEnd.untouched {r : SysResult Unit} (h : AllocEnd w virt fl r w') (hi : Inv w)
    (hv : pml4Index virt < 511) (hg : Held w g) : Untouched w.m.mem w'.m.mem g := by
  cases h with
  | empty => exact .refl _ _
  | @ends f q r w' handed mapped free =>
    refine (handed.untouched hi hg).trans ?_
    refine mapped.untouched handed.inv hv (List.mem_append_left _ List.mem_cons_self)
      (Handed.held hg) ?_
    rintro rfl
    exact handed.unowned hg.1

end untouched

/-! One page for each frame. -/

/-- A frame of the allocator is mapped at one key of the map at most, and code
holds it once, or not at all if it is mapped. -/
structure Sole (mem : Mem) (regions : List Phys.PhysRegion) (roots frames : List Nat) : Prop where
  nodup : frames.Nodup
  free : ∀ r ∈ roots, ∀ v e, pml4Index v < 511 → pageWord mem r v = some e → Maps regions e →
    frame e ∉ frames
  key : ∀ r ∈ roots, ∀ r' ∈ roots, ∀ v v' e e', pml4Index v < 511 → pml4Index v' < 511 →
    pageWord mem r v = some e → pageWord mem r' v' = some e' → Maps regions e → Maps regions e' →
    frame e = frame e' → Syscall.pageKey r v = Syscall.pageKey r' v'

section sole

variable {mem mem' : Mem} {regions : List Phys.PhysRegion} {roots roots' frames frames' : List Nat}

/-- What is mapped now was mapped at the same key before. -/
theorem Sole.of_old (h : Sole mem regions roots frames) (hnodup : frames'.Nodup)
    (hfree : ∀ r ∈ roots, ∀ v e, pml4Index v < 511 → pageWord mem r v = some e → Maps regions e →
      frame e ∉ frames')
    (hold : ∀ r ∈ roots', ∀ v e, pml4Index v < 511 → pageWord mem' r v = some e → Maps regions e →
      ∃ r₀ ∈ roots, pageWord mem r₀ v = some e ∧ Syscall.pageKey r₀ v = Syscall.pageKey r v) :
    Sole mem' regions roots' frames' where
  nodup := hnodup
  free r hr v e hv he hm := by
    obtain ⟨r₀, hr₀, he₀, -⟩ := hold r hr v e hv he hm
    exact hfree r₀ hr₀ v e hv he₀ hm
  key r hr r' hr' v v' e e' hv hv' he he' hm hm' hf := by
    obtain ⟨r₀, hr₀, he₀, hk₀⟩ := hold r hr v e hv he hm
    obtain ⟨r₁, hr₁, he₁, hk₁⟩ := hold r' hr' v' e' hv' he' hm'
    rw [← hk₀, ← hk₁]
    exact h.key r₀ hr₀ r₁ hr₁ v v' e e' hv hv' he₀ he₁ hm hm' hf

theorem Sole.same (h : Sole mem regions roots frames) (hroots : roots' ⊆ roots)
    (hwords : ∀ r ∈ roots', ∀ v, pml4Index v < 511 → pageWord mem' r v = pageWord mem r v)
    (hnodup : frames'.Nodup)
    (hfree : ∀ r ∈ roots, ∀ v e, pml4Index v < 511 → pageWord mem r v = some e → Maps regions e →
      frame e ∉ frames') : Sole mem' regions roots' frames' := by
  apply h.of_old hnodup hfree
  intro r hr v e hv he _
  rw [hwords r hr v hv] at he
  exact ⟨r, hroots hr, he, rfl⟩

/-- One entry is new: what it maps was mapped there before, or nowhere. -/
theorem Sole.set (h : Sole mem regions roots frames) {env : Syscall.Env} {c virt e₀ : Nat}
    (hwords : Words env mem roots) (hwords' : Words (env.setEntry c virt e₀) mem' roots)
    (hsub : frames'.Sublist frames) (hfree : Maps regions e₀ → frame e₀ ∉ frames')
    (hnew : Maps regions e₀ → ∀ r ∈ roots, ∀ v e, pml4Index v < 511 → pageWord mem r v = some e →
      Maps regions e → frame e = frame e₀ → Syscall.pageKey r v = Syscall.pageKey c virt) :
    Sole mem' regions roots frames' := by
  have hcases : ∀ r ∈ roots, ∀ v e, pml4Index v < 511 → pageWord mem' r v = some e →
      (Syscall.pageKey r v = Syscall.pageKey c virt ∧ e = e₀) ∨ pageWord mem r v = some e := by
    intro r hr v e hv he
    rw [hwords' r hr v hv] at he
    by_cases hk : Syscall.pageKey r v = Syscall.pageKey c virt
    · rw [Syscall.setEntry_key env e₀ hk] at he
      exact .inl ⟨hk, (Option.some.inj he).symm⟩
    · rw [Syscall.setEntry_other env e₀ hk] at he
      exact .inr ((hwords r hr v hv).trans he)
  refine ⟨h.nodup.sublist hsub, ?_, ?_⟩
  · intro r hr v e hv he hm
    rcases hcases r hr v e hv he with ⟨-, rfl⟩ | he
    · exact hfree hm
    · exact fun hx => h.free r hr v e hv he hm (hsub.subset hx)
  · intro r hr r' hr' v v' e e' hv hv' he he' hm hm' hf
    rcases hcases r hr v e hv he with ⟨hk, rfl⟩ | he
    · rcases hcases r' hr' v' e' hv' he' with ⟨hk', rfl⟩ | he'
      · rw [hk, hk']
      · rw [hk, hnew hm r' hr' v' e' hv' he' hm' hf.symm]
    · rcases hcases r' hr' v' e' hv' he' with ⟨hk', rfl⟩ | he'
      · rw [hk', hnew hm' r hr v e hv he hm hf]
      · exact h.key r hr r' hr' v v' e e' hv hv' he he' hm hm' hf

end sole

/-! Pages through a call. -/

/-- A world in which each frame has one page. -/
structure Private (frames : List Nat) (w : World) : Prop where
  fit : Fit w
  split : Split w.m.mem w.roots
  sole : Sole w.m.mem w.m.phys.regions w.roots frames
  live : ∀ f ∈ frames, f ∈ w.s.live

/-- Pages at other keys have the entries and the bytes that they had. -/
structure OthersKept (pages : List Nat) (w w' : World) : Prop where
  confined : Confined w w'
  page : ∀ r ∈ w.roots, ∀ v e, pml4Index v < 511 →
    (∀ u ∈ pages, Syscall.pageKey r v ≠ Syscall.pageKey w.m.cr3 u) →
    pageWord w.m.mem r v = some e → Maps w.m.phys.regions e →
    pageWord w'.m.mem r v = some e ∧ Untouched w.m.mem w'.m.mem (frame e)

theorem OthersKept.refl (pages : List Nat) (w : World) : OthersKept pages w w :=
  ⟨.refl w, fun _ _ _ _ _ _ he _ => ⟨he, .refl _ _⟩⟩

theorem OthersKept.trans {pages : List Nat} {w₁ w₂ w₃ : World} (h₁ : OthersKept pages w₁ w₂)
    (h₂ : OthersKept pages w₂ w₃) : OthersKept pages w₁ w₃ where
  confined := h₁.confined.trans h₂.confined
  page r hr v e hv hk he hm := by
    obtain ⟨he₂, hu₂⟩ := h₁.page r hr v e hv hk he hm
    have hk₂ : ∀ u ∈ pages, Syscall.pageKey r v ≠ Syscall.pageKey w₂.m.cr3 u := by
      rw [h₁.confined.cr3]
      exact hk
    obtain ⟨he₃, hu₃⟩ := h₂.page r (h₁.confined.roots ▸ hr) v e hv hk₂ he₂
      (h₁.confined.regions ▸ hm)
    exact ⟨he₃, hu₂.trans hu₃⟩

theorem OthersKept.mono {pages pages' : List Nat} (h : OthersKept pages w w') (hsub : pages ⊆ pages') :
    OthersKept pages' w w' :=
  ⟨h.confined, fun r hr v e hv hk => h.page r hr v e hv fun u hu => hk u (hsub hu)⟩

theorem Inv.held_page (hi : Inv w) (hc : Clean w) {r v e : Nat} (hr : r ∈ w.roots)
    (hv : pml4Index v < 511) (he : pageWord w.m.mem r v = some e) (hm : Maps w.m.phys.regions e) :
    Held w (frame e) := by
  obtain ⟨t, hf, rfl⟩ := find_of_pageWord he hm.1
  have ht := hi.linked.place_last (hi.root_place hr) hv hf
  have hin : (t, pml1Index v) ∈ w.slots :=
    (hi.mapped t _).mpr ⟨⟨_, ht, rfl, pml1Index_lt _⟩, hm⟩
  exact ⟨hi.leaf_owned hin, hc t _ hin⟩

section steps

variable {frames : List Nat} {f virt fl : Nat} {m' : Machine}

theorem Private.sees (h : Private frames w) : ∃ env, Sees w env := by
  obtain ⟨env, hwords, hwindow⟩ := h.fit.inv.shown
  exact ⟨env, h.fit.sound, h.split, hwords, hwindow⟩

theorem Private.held (h : Private frames w) {r v e : Nat} (hr : r ∈ w.roots)
    (hv : pml4Index v < 511) (he : pageWord w.m.mem r v = some e) (hm : Maps w.m.phys.regions e) :
    Held w (frame e) := h.fit.inv.held_page h.fit.clean hr hv he hm

/-- One entry of the loaded context is new, and the frames that other pages map are untouched. -/
theorem Private.set (h : Private frames w) {env : Syscall.Env} {e₀ : Nat} (hsees : Sees w env)
    (hsees' : Sees w' (env.setEntry w.m.cr3 virt e₀)) (hfit : Fit w') (hconf : Confined w w')
    (hfree : Maps w.m.phys.regions e₀ → frame e₀ ∉ frames)
    (hnew : Maps w.m.phys.regions e₀ → ∀ r ∈ w.roots, ∀ v e, pml4Index v < 511 →
      pageWord w.m.mem r v = some e → Maps w.m.phys.regions e → frame e = frame e₀ →
      Syscall.pageKey r v = Syscall.pageKey w.m.cr3 virt)
    (hbytes : ∀ r ∈ w.roots, ∀ v e, pml4Index v < 511 → pageWord w.m.mem r v = some e →
      Maps w.m.phys.regions e → Syscall.pageKey r v ≠ Syscall.pageKey w.m.cr3 virt →
      Untouched w.m.mem w'.m.mem (frame e)) :
    Private frames w' ∧ OthersKept [virt] w w' := by
  have hwords' : Words (env.setEntry w.m.cr3 virt e₀) w'.m.mem w.roots := by
    rw [← hconf.roots]
    exact hsees'.words
  refine ⟨⟨hfit, hsees'.split, ?_, ?_⟩, hconf, ?_⟩
  · rw [hconf.regions, hconf.roots]
    exact h.sole.set hsees.words hwords' (List.Sublist.refl _) hfree hnew
  · rw [hconf.live]
    exact h.live
  · intro r hr v e hv hk he hm
    have hkey := hk virt List.mem_cons_self
    refine ⟨?_, hbytes r hr v e hv he hm hkey⟩
    rw [hwords' r hr v hv, Syscall.setEntry_other env e₀ hkey, ← hsees.words r hr v hv]
    exact he

theorem Private.unmap (h : Private frames w) (hv : pml4Index virt < 256)
    (hm : tables.unmap w.m virt = some m') :
    ∃ w', w'.m = m' ∧ Private frames w' ∧ OthersKept [virt] w w' := by
  have hi := h.fit.inv
  obtain ⟨env, hsees⟩ := h.sees
  obtain ⟨w', rfl, hend, hw', hst, hconf⟩ := unmap_ends h.fit.sound hv hm
  obtain ⟨w₁, hm₁, hconf₁, -, hsees₁⟩ := hsees.unmap hv hm
  have hsees' := hsees₁.transfer hm₁ (hconf₁.ctxs.trans hconf.ctxs.symm) hw'
  refine ⟨w', rfl, h.set hsees hsees' (hst.fit h.fit hw') hconf (fun hx => absurd rfl hx.1)
    (fun hx => absurd rfl hx.1) ?_⟩
  intro r hr v e hv' he hmap hkey
  refine hend.untouched hi (by omega) (h.held hr hv' he hmap) fun e' he' hmap' hf => hkey ?_
  exact h.sole.key r hr _ List.mem_cons_self v virt e e' hv' (by omega) he he' hmap hmap' hf.symm

theorem Private.modify (h : Private frames w) (hv : pml4Index virt < 256) (hfl : fl < PAGE_SIZE)
    (hm : PageCalls.modifyAs tables fl w.m virt = some m') :
    ∃ w', w'.m = m' ∧ Private frames w' ∧ OthersKept [virt] w w' := by
  have hi := h.fit.inv
  obtain ⟨env, hsees⟩ := h.sees
  obtain ⟨w', rfl, hend, hw', hst, hconf⟩ := modify_ends h.fit.sound hv hfl hm
  obtain ⟨w₁, hm₁, hconf₁, h0, hsees₁⟩ := hsees.modify hv hfl hm
  have hsees' := hsees₁.transfer hm₁ (hconf₁.ctxs.trans hconf.ctxs.symm) hw'
  have hold := hsees.words _ List.mem_cons_self virt (by omega)
  have hframe := frame_setFlags (env.entry w.m.cr3 virt) hfl
  have hmaps : Maps w.m.phys.regions (setFlags (env.entry w.m.cr3 virt) fl) →
      Maps w.m.phys.regions (env.entry w.m.cr3 virt) := fun hx => ⟨h0, hframe ▸ hx.2⟩
  refine ⟨w', rfl, h.set hsees hsees' (hst.fit h.fit hw') hconf ?_ ?_ ?_⟩
  · intro hx
    rw [hframe]
    exact h.sole.free _ List.mem_cons_self virt _ (by omega) hold (hmaps hx)
  · intro hx r hr v e hv' he hmap hf
    rw [hframe] at hf
    exact h.sole.key r hr _ List.mem_cons_self v virt e _ hv' (by omega) he hold hmap (hmaps hx) hf
  · exact fun r hr v e hv' he hmap _ => hend.untouched hi (by omega) (h.held hr hv' he hmap)

theorem Private.mapPhys (h : Private frames w) (hv : pml4Index virt < 256) (hfl : fl < PAGE_SIZE)
    (hf : ¬ Phys.Managed w.m.phys.regions f)
    (hm : PageCalls.mapPhysAs tables fl w.m (virt, f) = some m') :
    ∃ w', w'.m = m' ∧ Private frames w' ∧ OthersKept [virt] w w' := by
  have hi := h.fit.inv
  obtain ⟨env, hsees⟩ := h.sees
  obtain ⟨w', rfl, hend, hw', hst, hconf⟩ := mapForeign_ends h.fit.sound hv hfl hf hm
  obtain ⟨w₁, hm₁, hconf₁, -, hsees₁⟩ := hsees.mapPhys hv hfl hf hm
  have hsees' := hsees₁.transfer hm₁ (hconf₁.ctxs.trans hconf.ctxs.symm) hw'
  have hnot : ¬ Maps w.m.phys.regions (f ||| fl) := by
    rintro ⟨-, hx⟩
    rw [frame_or f hfl] at hx
    exact hi.frame_foreign hf hx
  exact ⟨w', rfl, h.set hsees hsees' (hst.fit h.fit hw') hconf (fun hx => absurd hx hnot)
    (fun hx => absurd hx hnot) fun r hr v e hv' he hmap _ =>
      hend.untouched (by omega) (h.held hr hv' he hmap)⟩

theorem Private.allocMap (h : Private frames w) (hv : pml4Index virt < 256) (hfl : fl < PAGE_SIZE)
    {r : SysResult Unit} (hm : tables.allocMap w.m virt fl = some (r, m')) :
    ∃ w', w'.m = m' ∧ Private frames w' ∧ OthersKept [virt] w w' := by
  have hi := h.fit.inv
  obtain ⟨env, hsees⟩ := h.sees
  obtain ⟨w', rfl, hend⟩ := allocMap_spec h.fit.sound hv hm
  obtain ⟨hw', hst, hconf⟩ := hend.sound h.fit.sound hv hfl
  have hfit := hst.fit h.fit hw'
  have hbytes : ∀ r ∈ w.roots, ∀ v e, pml4Index v < 511 → pageWord w.m.mem r v = some e →
      Maps w.m.phys.regions e → Untouched w.m.mem w'.m.mem (frame e) :=
    fun r hr v e hv' he hmap => hend.untouched hi (by omega) (h.held hr hv' he hmap)
  obtain ⟨w₁, hm₁, hconf₁, ⟨-, hsees₁⟩ | ⟨f, -, hun, hframe, -, hsees₁⟩⟩ := hsees.allocMap hv hfl hm
  · have hsees' := hsees₁.transfer hm₁ (hconf₁.ctxs.trans hconf.ctxs.symm) hw'
    have hsame : ∀ r ∈ w.roots, ∀ v, pml4Index v < 511 →
        pageWord w'.m.mem r v = pageWord w.m.mem r v := by
      intro r hr v hv'
      rw [hsees'.words r (hconf.roots ▸ hr) v hv', hsees.words r hr v hv']
    refine ⟨w', rfl, ⟨hfit, hsees'.split, ?_, hconf.live ▸ h.live⟩, hconf, ?_⟩
    · rw [hconf.regions, hconf.roots]
      exact h.sole.same (fun _ hr => hr) hsame h.sole.nodup h.sole.free
    · intro r hr v e hv' _ he hmap
      exact ⟨(hsame r hr v hv').trans he, hbytes r hr v e hv' he hmap⟩
  · have hsees' := hsees₁.transfer hm₁ (hconf₁.ctxs.trans hconf.ctxs.symm) hw'
    refine ⟨w', rfl, h.set hsees hsees' hfit hconf ?_ ?_
      fun r hr v e hv' he hmap _ => hbytes r hr v e hv' he hmap⟩
    · intro _ hx
      rw [hframe] at hx
      exact hun (List.mem_append_left _ (h.live f hx))
    · intro _ r hr v e hv' he hmap hf
      rw [hframe] at hf
      exact absurd (hf ▸ (h.held hr hv' he hmap).1) hun

end steps

/-- The pages of a call. -/
def Call.pages : Call → List Nat
  | .allocPage v n _ => PageRange.pages ⟨v, n⟩
  | .releasePage v n => PageRange.pages ⟨v, n⟩
  | .modifyPage v n _ => PageRange.pages ⟨v, n⟩
  | .mapPhysicalMemory v _ n _ => PageRange.pages ⟨v, n⟩

theorem OthersKept.member {pages : List Nat} {a : Nat} (h : OthersKept [a] w w') (ha : a ∈ pages) :
    OthersKept pages w w' := h.mono fun _ hu => List.mem_singleton.mp hu ▸ ha

/-- No call changes a page that it does not name. -/
theorem Private.call {frames : List Nat} (h : Private frames w) {c : Call} {r : SysResult Nat}
    {m' : Machine} (hout : Outside w.m.phys.regions c) (hc : c.exec w.m = some (r, m')) :
    ∃ w', w'.m = m' ∧ Private frames w' ∧ OthersKept c.pages w w' := by
  have hfail : ∀ {m''}, m'' = w.m → ∃ w', w'.m = m'' ∧ Private frames w' ∧ OthersKept c.pages w w' := by
    rintro m'' rfl
    exact ⟨w, rfl, h, .refl _ w⟩
  have hrefl : ∀ w, OthersKept c.pages w w := OthersKept.refl _
  have htrans : ∀ u v w, OthersKept c.pages u v → OthersKept c.pages v w → OthersKept c.pages u w :=
    fun _ _ _ => OthersKept.trans
  have hpages : ∀ {v n : Nat} {range : PageRange}, PageRange.new v n = .ok range →
      range = ⟨v, n⟩ := fun hn => (PageRange.new_ok hn).1
  cases c with
  | allocPage v n bits =>
    rcases PageCalls.allocPage_cases hc with ⟨e, -, hm⟩ | ⟨range, fl, hn, hv, hfl, hc⟩
    · exact hfail hm
    · obtain ⟨huser, -⟩ := h.fit.sound.range_user hn (.inl hv)
      obtain rfl := hpages hn
      refine PageCalls.allocPages_follow (f := World.m) hrefl htrans ?_ h hc
      intro a ha u x s' hu hs
      obtain ⟨u', hm, hu', hk⟩ :=
        Private.allocMap hu (user_index (huser a ha).1) (userPageFlags_lt hfl) hs
      exact ⟨u', hm, hu', hk.member ha⟩
  | releasePage v n =>
    rcases PageCalls.releasePage_cases hc with ⟨e, -, hm⟩ | ⟨range, hn, hv, hc, -⟩
    · exact hfail hm
    · obtain ⟨huser, -⟩ := h.fit.sound.range_user hn (.inr hv)
      obtain rfl := hpages hn
      refine run_follow (f := World.m) hrefl htrans ?_ h hc
      intro a ha u t hu hs
      obtain ⟨u', hm, hu', hk⟩ := Private.unmap hu (user_index (huser a ha).1) hs
      exact ⟨u', hm, hu', hk.member ha⟩
  | modifyPage v n bits =>
    rcases PageCalls.modifyPage_cases hc with ⟨e, -, hm⟩ | ⟨range, fl, hn, hv, hfl, hc, -⟩
    · exact hfail hm
    · obtain ⟨huser, -⟩ := h.fit.sound.range_user hn (.inr hv)
      obtain rfl := hpages hn
      refine run_follow (f := World.m) hrefl htrans ?_ h hc
      intro a ha u t hu hs
      obtain ⟨u', hm, hu', hk⟩ :=
        Private.modify hu (user_index (huser a ha).1) (userPageFlags_lt hfl) hs
      exact ⟨u', hm, hu', hk.member ha⟩
  | mapPhysicalMemory v p n bits =>
    rcases PageCalls.mapPhysicalMemory_cases hc with ⟨e, -, hm⟩ | ⟨range, fl, hn, hv, hfl, hc, -⟩
    · exact hfail hm
    · obtain ⟨huser, -⟩ := h.fit.sound.range_user hn (.inl hv)
      obtain rfl := hpages hn
      obtain ⟨w', hm, hw', hk⟩ := run_follow (f := World.m)
        (P := fun u => Private frames u ∧ u.m.phys.regions = w.m.phys.regions) hrefl htrans
        (fun a ha u t hu hs => by
          obtain ⟨hv', hp'⟩ := List.of_mem_zip ha
          obtain ⟨u', hm, hu', hk⟩ := Private.mapPhys hu.1 (user_index (huser a.1 hv').1)
            (userPageFlags_lt hfl) (hu.2 ▸ hout a.2 hp') hs
          exact ⟨u', hm, ⟨hu', hk.confined.regions.trans hu.2⟩, hk.member hv'⟩) ⟨h, rfl⟩ hc
      exact ⟨w', hm, hw'.1, hk⟩

/-! Pages through an event. -/

/-- The pages that an event is about. -/
def Event.pages : Event → List Nat
  | .op (.map _ virt _) => [virt]
  | .op (.unmap virt) => [virt]
  | .op _ => []
  | .call c => c.pages
  | .store virt _ => [virt]

/-- A state in which each frame has one page. -/
structure Apart (k : Kernel) (w : World) : Prop where
  ready : Ready k w
  split : Split k.m.mem k.roots
  sole : Sole k.m.mem k.m.phys.regions k.roots k.frames

/-- Pages at other keys of contexts that are still there have the entries and
the bytes that they had. -/
structure Spared (pages : List Nat) (k k' : Kernel) : Prop where
  regions : k'.m.phys.regions = k.m.phys.regions
  page : ∀ r ∈ k.roots, r ∈ k'.roots → ∀ v e, pml4Index v < 511 →
    (∀ u ∈ pages, Syscall.pageKey r v ≠ Syscall.pageKey k.m.cr3 u) →
    pageWord k.m.mem r v = some e → Maps k.m.phys.regions e →
    pageWord k'.m.mem r v = some e ∧ Untouched k.m.mem k'.m.mem (frame e)

variable {k k' : Kernel}

theorem Apart.live (h : Apart k w) {f : Nat} (hf : f ∈ k.frames) : f ∈ w.s.live :=
  h.ready.holds.owned.subset (List.mem_append_right _ hf)

theorem Apart.priv (h : Apart k w) : Private k.frames w := by
  refine ⟨h.ready.fit, ?_, ?_, fun f hf => h.live hf⟩
  · rw [h.ready.holds.roots, h.ready.holds.m]
    exact h.split
  · rw [h.ready.holds.roots, h.ready.holds.m]
    exact h.sole

theorem Apart.held (h : Apart k w) {r v e : Nat} (hr : r ∈ k.roots) (hv : pml4Index v < 511)
    (he : pageWord k.m.mem r v = some e) (hm : Maps k.m.phys.regions e) : Held w (frame e) := by
  rw [← h.ready.holds.m] at he hm
  rw [← h.ready.holds.roots] at hr
  exact h.priv.held hr hv he hm

theorem Apart.settled (h : Apart k w) {r v e : Nat} (hr : r ∈ k.roots) (hv : pml4Index v < 511)
    (he : pageWord k.m.mem r v = some e) (hm : Maps k.m.phys.regions e) : Settled k w (frame e) := by
  obtain ⟨hown, hplain⟩ := h.held hr hv he hm
  exact ⟨hown, hplain, h.sole.free r hr v e hv he hm⟩

theorem Apart.calm (h : Apart k w) (hc : Calm k w k') :
    Sole k'.m.mem k'.m.phys.regions k'.roots k'.frames ∧ Spared [] k k' := by
  refine ⟨?_, hc.regions, ?_⟩
  · rw [hc.regions]
    rcases hc.frames with hsub | ⟨f, hun, hf⟩
    · exact h.sole.same hc.roots hc.words (h.sole.nodup.sublist hsub)
        fun r hr v e hv he hm hx => h.sole.free r hr v e hv he hm (hsub.subset hx)
    · rw [hf]
      refine h.sole.same hc.roots hc.words (List.nodup_cons.mpr ⟨fun hx => ?_, h.sole.nodup⟩) ?_
      · exact hun (List.mem_append_left _ (h.live hx))
      · intro r hr v e hv he hm hx
        rcases List.mem_cons.mp hx with hx | hx
        · exact hun (hx ▸ (h.held hr hv he hm).1)
        · exact h.sole.free r hr v e hv he hm hx
  · intro r hr hr' v e hv _ he hm
    rw [hc.words r hr' v hv]
    exact ⟨he, hc.contents _ (h.settled hr hv he hm)⟩

/-- A new PML4 maps what the loaded one maps in the kernel half. -/
theorem NewRoot.pageWord {f v : Nat} {mem : Mem} (h : NewRoot w f mem) (hi : Inv w)
    (hl : Linked (w.root f mem).place mem) (hv : pml4Index v < 511) :
    (pml4Index v < 256 → Page.pageWord mem f v = some 0) ∧
    (256 ≤ pml4Index v → Page.pageWord mem f v = Page.pageWord mem w.m.cr3 v) ∧
    ∀ r, w.place r = some [] → Page.pageWord mem r v = Page.pageWord w.m.mem r v := by
  have hroot : (w.root f mem).place f = some [] := Function.update_self _ _ _
  refine ⟨fun huser => ?_, fun hkernel => ?_, fun r hr => ?_⟩
  · rw [Page.pageWord, lastTable, lookup, if_pos (h.user _ huser)]
  · have hword := hl.agree f w.m.cr3 _ hroot (h.old hi.loaded) hkernel hv
    rw [Page.pageWord, Page.pageWord, lastTable, lookup, lookup, hword]
  · have hplaced : find next mem r (lastTable v) = find next w.m.mem r (lastTable v) :=
      hi.linked.placed.find_congr (fun t p i ht hwi => h.other hi ht (way_snoc hwi).2) hr
        (way_lastTable hv)
    rw [hi.linked.pageWord_eq hr hv, hl.pageWord_eq (h.old hr) hv, hplaced]
    cases hf : find next w.m.mem r (lastTable v) with
    | none => rfl
    | some t =>
      exact congrArg some (h.other hi (hi.linked.place_last hr hv hf) (pml1Index_lt _))

theorem Apart.root (h : Apart k w) {f : Nat} {q : Phys.PhysMem} {mem : Mem} (hh : Handed w f q)
    (hnew : NewRoot (w.hand f q) f mem)
    (hk : k' = ⟨((w.hand f q).root f mem).m, f :: k.ctxs, k.frames⟩) :
    Sole k'.m.mem k'.m.phys.regions k'.roots k'.frames ∧ Spared [] k k' := by
  subst hk
  have hi := h.ready.holds.inv
  have hm := h.ready.holds.m
  have hwords : ∀ r ∈ k.roots, ∀ v, pml4Index v < 511 →
      pageWord mem r v = pageWord k.m.mem r v := by
    intro r hr v hv
    have hplace : w.place r = some [] := h.ready.holds.root_place hr
    rw [((hnew.pageWord hh.inv (hnew.linked hh.inv) hv).2.2 r hplace), ← hm]
    exact (hh.sameTables hi).pageWord hi hplace hv
  have hreg : q.regions = k.m.phys.regions := by rw [hh.regions, hm]
  refine ⟨?_, hreg, ?_⟩
  · change Sole mem q.regions (w.m.cr3 :: f :: k.ctxs) k.frames
    rw [hreg]
    apply h.sole.of_old h.sole.nodup h.sole.free
    intro r hr v e hv he hmap
    by_cases hrf : r = f
    · subst hrf
      obtain ⟨huser, hkernel, -⟩ := hnew.pageWord hh.inv (hnew.linked hh.inv) hv
      by_cases hhalf : pml4Index v < 256
      · rw [huser hhalf] at he
        exact absurd (Option.some.inj he).symm hmap.1
      · have hcr3 : w.m.cr3 = k.m.cr3 := congrArg Machine.cr3 hm
        have he' : pageWord mem w.m.cr3 v = some e := (hkernel (by omega)).symm.trans he
        rw [hcr3, hwords _ List.mem_cons_self v hv] at he'
        exact ⟨_, List.mem_cons_self, he', pageKey_kernel (by omega) _ _ rfl⟩
    · have hold : r ∈ k.roots := by
        rw [Kernel.roots, ← hm]
        simpa [hrf] using hr
      exact ⟨r, hold, hwords r hold v hv ▸ he, rfl⟩
  · intro r hr _ v e hv _ he hmap
    have hheld := h.held hr hv he hmap
    refine ⟨(hwords r hr v hv).trans he, ?_⟩
    rw [← hm]
    refine (hh.untouched hi hheld).trans ?_
    refine untouched_of_outside (hi.aligned_owner hheld.1) hh.aligned ?_ hnew.outside
    intro hx
    exact hh.unowned (hx ▸ hheld.1)

theorem Apart.map (h : Apart k w) {f virt fl : Nat} {r : Except MapError Unit} {m' : Machine}
    (hv : pml4Index virt < 511) (hfl : fl < PAGE_SIZE)
    (hf : f ∈ k.frames ∨ ¬ Phys.Managed w.m.phys.regions f)
    (hm : Page.map w.m f virt fl = some (r, m')) :
    Sole m'.mem m'.phys.regions (m'.cr3 :: k.ctxs) (k.frames.erase f) ∧
      Spared [virt] k ⟨m', k.ctxs, k.frames.erase f⟩ := by
  have hk := h.ready.holds
  have hi := hk.inv
  have htop := hk.full.topReady hv
  have hp := h.priv
  obtain ⟨env, hsees⟩ := hp.sees
  have hsplit : Split m'.mem w.roots :=
    map_split hi hv htop (hk.givable hf) hi.roots_place hp.split hm
  have hcr3 : m'.cr3 = w.m.cr3 := map_cr3 hi hv htop (hk.givable hf) hm
  have hroots : m'.cr3 :: k.ctxs = w.roots := by rw [hcr3, World.roots, hk.ctxs]
  -- what is common to the two kinds of frames
  suffices hmain : m'.phys.regions = w.m.phys.regions ∧
      (∀ g, Held w g → g ∉ k.frames → Untouched w.m.mem m'.mem g) ∧
      ((∀ r ∈ w.roots, ∀ v, pml4Index v < 511 → pageWord m'.mem r v = pageWord w.m.mem r v) ∨
        Words (env.setEntry w.m.cr3 virt (f ||| fl)) m'.mem w.roots) by
    obtain ⟨hreg, hbytes, hwords⟩ := hmain
    rw [hroots, hreg]
    have hkeep : ∀ r ∈ w.roots, ∀ v e, pml4Index v < 511 →
        Syscall.pageKey r v ≠ Syscall.pageKey w.m.cr3 virt → pageWord w.m.mem r v = some e →
        pageWord m'.mem r v = some e := by
      intro r hr v e hv' hkey he
      rcases hwords with hsame | hset
      · rw [hsame r hr v hv', he]
      · rw [hset r hr v hv', Syscall.setEntry_other env _ hkey, ← hsees.words r hr v hv', he]
    refine ⟨?_, by rw [hreg, hk.m], fun r hr _ v e hv' hkey he hmap => ?_⟩
    · rcases hwords with hsame | hset
      · exact hp.sole.same (fun _ hr => hr) hsame (hp.sole.nodup.erase f)
          fun r hr v e hv' he hmap hx => hp.sole.free r hr v e hv' he hmap (List.mem_of_mem_erase hx)
      · have hframe : Maps w.m.phys.regions (f ||| fl) → f ∈ k.frames ∧ frame (f ||| fl) = f := by
          intro hmap
          rcases hf with hmem | hforeign
          · have hown : f ∈ w.s.owners := hk.owner hmem
            exact ⟨hmem, by rw [frame_or f hfl, frame_aligned (hi.aligned_owner hown)]⟩
          · have hx := hmap.2
            rw [frame_or f hfl] at hx
            exact absurd hx (hi.frame_foreign hforeign)
        refine hp.sole.set hsees.words hset List.erase_sublist (fun hmap => ?_) ?_
        · rw [(hframe hmap).2]
          exact hp.sole.nodup.not_mem_erase
        · intro hmap r hr v e hv' he hmap' hfe
          rw [(hframe hmap).2] at hfe
          exact absurd (hfe ▸ (hframe hmap).1) (hp.sole.free r hr v e hv' he hmap')
    · have hs := h.settled hr hv' he hmap
      rw [← hk.roots] at hr
      rw [← hk.m] at hkey he ⊢
      exact ⟨hkeep r hr v e hv' (hkey virt List.mem_cons_self) he,
        hbytes _ ⟨hs.owned, hs.plain⟩ hs.free⟩
  by_cases hmem : f ∈ k.frames
  · obtain ⟨w', rfl, hend⟩ := map_spec hi hv htop (hk.loose hmem) hm
    refine ⟨hend.same.2.2, fun g hg hfree => ?_, ?_⟩
    · refine hend.untouched hi hv (hk.owner hmem) hg ?_
      rintro rfl
      exact hfree hmem
    · cases r with
      | ok u => exact .inr (hend.words hi hv hsplit hsees.words).2
      | error e =>
        exact .inl fun r hr v hv' => hend.other hv (hi.root_place hr) hv' fun hx => by cases hx
  · have hforeign := hf.resolve_left hmem
    obtain ⟨w', rfl, hend⟩ := mapForeign_spec hi hv htop hforeign hm
    refine ⟨?_, fun g hg _ => hend.untouched hv hg, ?_⟩
    · cases hend with
      | done ext inv last empty => exact ext.regions
      | fails ext inv e => exact ext.regions
    · cases r with
      | ok u => exact .inr (hend.words hi hv hsplit hsees.words).2
      | error e =>
        cases hend with
        | fails ext inv e => exact .inl fun r hr v hv' => ext.words r v (hi.root_place hr) hv'

theorem Apart.unmap (h : Apart k w) {virt : Nat} {r : Except NotMapped Unit} {m' : Machine}
    (hv : pml4Index virt < 511) (hu : Page.unmap w.m virt = some (r, m')) :
    Sole m'.mem m'.phys.regions (m'.cr3 :: k.ctxs) k.frames ∧
      Spared [virt] k ⟨m', k.ctxs, k.frames⟩ := by
  have hk := h.ready.holds
  have hi := hk.inv
  have hp := h.priv
  obtain ⟨env, hsees⟩ := hp.sees
  obtain ⟨w', rfl, hend⟩ := unmap_spec hi hv hu
  have hroots : w'.m.cr3 :: k.ctxs = w.roots := by rw [hend.cr3, World.roots, hk.ctxs]
  have hreg : w'.m.phys.regions = w.m.phys.regions := by
    cases hend with
    | fails word none => rfl
    | done last entry some managed dropped => exact dropped.regions
    | foreign last some outside => rfl
  rw [hroots, hreg]
  refine ⟨?_, by rw [hreg, hk.m], fun c hr _ v e hv' hkey he hmap => ?_⟩
  · cases r with
    | error x =>
      cases hend with
      | fails word none => exact hp.sole
    | ok u =>
      exact hp.sole.set hsees.words (hend.words hi hv hp.split hsees.words).2 (List.Sublist.refl _)
        (fun hx => absurd rfl hx.1) fun hx => absurd rfl hx.1
  · have hheld := h.held hr hv' he hmap
    rw [← hk.roots] at hr
    rw [← hk.m] at hkey he hmap ⊢
    have hother := hkey virt List.mem_cons_self
    refine ⟨?_, hend.untouched hi hv hheld fun e' he' hmap' hf => hother ?_⟩
    · cases r with
      | error x =>
        cases hend with
        | fails word none => exact he
      | ok u =>
        rw [(hend.words hi hv hp.split hsees.words).2 _ hr v hv', Syscall.setEntry_other env _ hother,
          ← hsees.words _ hr v hv', he]
    · exact hp.sole.key c hr _ List.mem_cons_self v virt e e' hv' hv he he' hmap hmap' hf.symm

/-- A store of user code is one in the frame of its page. -/
theorem userStore_word {m m' : Machine} {virt value : Nat} (h : userStore m virt value = some m') :
    ∃ e, pageWord m.mem m.cr3 virt = some e ∧ Maps m.phys.regions e ∧
      m' = m.setMem (Function.update m.mem (frame e + virt % PAGE_SIZE) value) := by
  obtain ⟨e, he, h⟩ := Option.bind_eq_some_iff.mp h
  split at h
  · rename_i hc
    obtain ⟨-, hfl, hm⟩ := hc
    change e % 8 = 7 at hfl
    have h0 : e ≠ 0 := by
      rintro rfl
      cases hfl
    have hodd : e % 2 = 1 := by omega
    have hnext : next e = some (frame e) := if_pos hodd
    obtain ⟨t, hf, rfl⟩ := find_of_pageWord he h0
    have hidx : indices virt = lastTable virt ++ [pml1Index virt] := rfl
    have hwalk : walk m.mem m.cr3 virt = some (frame (m.mem (slot t (pml1Index virt))) +
        virt % PAGE_SIZE) := by
      rw [walk, hidx, Radix.find_snoc hf hnext, Option.map_some]
    rw [store, hwalk] at h
    cases h
    exact ⟨_, he, ⟨h0, hm⟩, rfl⟩
  · cases h

theorem Apart.store (h : Apart k w) {virt value : Nat} {m' : Machine} (hv : pml4Index virt < 511)
    (hst : userStore k.m virt value = some m') :
    Sole m'.mem m'.phys.regions (m'.cr3 :: k.ctxs) k.frames ∧
      Spared [virt] k ⟨m', k.ctxs, k.frames⟩ := by
  have hk := h.ready.holds
  have hi := hk.inv
  obtain ⟨e₀, he₀, hm₀, hm'⟩ := userStore_word hst
  have hsame : ∀ r ∈ k.roots, ∀ v, pml4Index v < 511 → pageWord m'.mem r v = pageWord k.m.mem r v := by
    intro r hr v hv'
    rw [← hk.m] at hst ⊢
    obtain ⟨a, rfl, hsame, -⟩ := userStore_spec h.ready.fit hst
    exact hsame.pageWord hi (hk.root_place hr) hv'
  subst hm'
  refine ⟨h.sole.same (fun _ hr => hr) hsame h.sole.nodup h.sole.free, rfl, ?_⟩
  intro r hr _ v e hv' hkey he hmap
  refine ⟨(hsame r hr v hv').trans he, fun a ha hb => Function.update_of_ne ?_ _ _⟩
  have hne : frame e ≠ frame e₀ := fun hf => hkey virt List.mem_cons_self
    (h.sole.key r hr _ List.mem_cons_self v virt e e₀ hv' hv he he₀ hmap hm₀ hf)
  have hlt : virt % PAGE_SIZE < PAGE_SIZE := Nat.mod_lt _ (by decide)
  rintro rfl
  exact Phys.frame_apart (dvd_frame e) (dvd_frame e₀) hne.symm (Nat.le_add_right _ _) (by omega)
    ⟨ha, hb⟩

theorem Apart.op (h : Apart k w) {o : Op} (hs : step k o = some k') :
    Sole k'.m.mem k'.m.phys.regions k'.roots k'.frames ∧ Spared (Event.op o).pages k k' := by
  have hnone : ∀ {pages : List Nat}, Spared [] k k' → Spared pages k k' :=
    fun hsp => ⟨hsp.regions, fun r hr hr' v e hv _ => hsp.page r hr hr' v e hv fun _ hu => by cases hu⟩
  cases step_ends h.ready.holds hs with
  | calm same =>
    obtain ⟨hsole, hsp⟩ := h.calm same
    exact ⟨hsole, hnone hsp⟩
  | root handed new =>
    obtain ⟨hsole, hsp⟩ := h.root handed new rfl
    exact ⟨hsole, hnone hsp⟩
  | map index flags held mapped => exact h.map index flags held mapped
  | unmap index unmapped => exact h.unmap index unmapped

/-- What one event keeps: each frame has one page, and no other page changes. -/
theorem kernelStep_apart {e : Event} (h : Apart k w) (ha : Allowed k e)
    (hs : kernelStep k e = some k') : (∃ w', Apart k' w') ∧ Spared e.pages k k' := by
  obtain ⟨w', hw'⟩ := kernelStep_ready h.ready ha hs
  have hsplit := kernelStep_split h.ready h.split ha hs
  suffices hmain : Sole k'.m.mem k'.m.phys.regions k'.roots k'.frames ∧ Spared e.pages k k' from
    ⟨⟨w', hw', hsplit, hmain.1⟩, hmain.2⟩
  cases e with
  | op o => exact h.op hs
  | call c =>
    obtain ⟨⟨r, m'⟩, hc, hk⟩ := Option.map_eq_some_iff.mp hs
    cases hk
    have hk := h.ready.holds
    have hout : Outside w.m.phys.regions c := hk.m ▸ ha
    rw [← hk.m] at hc
    obtain ⟨w₁, rfl, hp, hkept⟩ := h.priv.call hout hc
    have hroots : Kernel.roots ⟨w₁.m, k.ctxs, k.frames⟩ = w₁.roots := by
      rw [Kernel.roots, World.roots, hkept.confined.ctxs, hk.ctxs]
    refine ⟨?_, ?_, ?_⟩
    · rw [hroots]
      exact hp.sole
    · exact hkept.confined.regions.trans (by rw [hk.m])
    · rw [← hk.m, ← hk.roots]
      exact fun r hr _ v e hv hkey he hmap => hkept.page r hr v e hv hkey he hmap
  | store virt value =>
    obtain ⟨m', hst, hk⟩ := Option.map_eq_some_iff.mp hs
    cases hk
    have hv : pml4Index virt < 511 := by
      obtain ⟨e, -, hx⟩ := Option.bind_eq_some_iff.mp hst
      split at hx
      · rename_i hc
        exact hc.1.trans (by decide)
      · cases hx
    exact h.store hv hst

/-- The event is taken while the context is there, and not on its page. -/
def Elsewhere (r v : Nat) (k : Kernel) (e : Event) : Prop :=
  r ∈ k.roots ∧ (k.m.cr3 = r → ∀ u ∈ e.pages, indices v ≠ indices u)

instance (r v : Nat) (k : Kernel) (e : Event) : Decidable (Elsewhere r v k e) :=
  inferInstanceAs (Decidable (_ ∧ _))

theorem Elsewhere.key {r v : Nat} {e : Event} (h : Elsewhere r v k e) (hv : pml4Index v < 256) :
    ∀ u ∈ e.pages, Syscall.pageKey r v ≠ Syscall.pageKey k.m.cr3 u := by
  intro u hu hk
  obtain ⟨hc, hidx⟩ := (pageKey_eq hv).mp hk.symm
  exact h.2 hc u hu hidx.symm

/-- A user page of a context keeps its entry and its bytes through a run of
which no event is on that page while the context is loaded. -/
theorem run_spared {evs : List Event} {r v e : Nat} (h : Apart k w) (hv : pml4Index v < 256)
    (hallowed : Along kernelStep Allowed k evs) (helse : Along kernelStep (Elsewhere r v) k evs)
    (hrun : run kernelStep k evs = some k') (hr : r ∈ k'.roots)
    (he : pageWord k.m.mem r v = some e) (hm : Maps k.m.phys.regions e) :
    pageWord k'.m.mem r v = some e ∧ Untouched k.m.mem k'.m.mem (frame e) := by
  induction evs generalizing k w with
  | nil =>
    cases hrun
    exact ⟨he, .refl _ _⟩
  | cons ev evs ih =>
    rw [run_cons] at hrun
    obtain ⟨k₁, hk₁, hrun⟩ := Option.bind_eq_some_iff.mp hrun
    obtain ⟨⟨w₁, h₁⟩, hsp⟩ := kernelStep_apart h hallowed.1 hk₁
    have hall₁ := along_cons hallowed hk₁
    have helse₁ := along_cons helse hk₁
    have hr₁ : r ∈ k₁.roots := by
      cases evs with
      | nil =>
        cases hrun
        exact hr
      | cons ev' evs => exact helse₁.1.1
    obtain ⟨he₁, hu₁⟩ := hsp.page r helse.1.1 hr₁ v e (by omega) (helse.1.key hv) he hm
    obtain ⟨he₂, hu₂⟩ := ih h₁ hall₁ helse₁ hrun he₁ (hsp.regions ▸ hm)
    exact ⟨he₂, hu₁.trans hu₂⟩

theorem Booted.apart {frames : List Nat} {m : Machine} (h : Booted w frames)
    (hinit : initKernelPml4Entries w.m = some m)
    (hsole : Sole w.m.mem w.m.phys.regions [w.m.cr3] frames) :
    ∃ w', Apart ⟨m, [], frames⟩ w' := by
  obtain ⟨w', hw'⟩ := h.ready hinit
  have hone : OneRoot w := by
    intro r hr
    have hr := h.inv.root r hr
    rw [h.ctxs] at hr
    exact List.mem_singleton.mp hr
  obtain ⟨w₁, rfl, hi₁, he₁, -⟩ := initKernelPml4Entries_spec h.inv hone hinit
  refine ⟨w', hw', split_single _ _, ?_⟩
  change Sole w₁.m.mem w₁.m.phys.regions [w₁.m.cr3] frames
  rw [he₁.regions, he₁.cr3]
  refine hsole.same (fun _ hr => hr) (fun r hr v hv => ?_) hsole.nodup hsole.free
  rw [List.mem_singleton.mp hr]
  exact he₁.words _ v h.inv.loaded hv

/-- In a run of the kernel and of user code, the entry of a user page of a page
context and every word of its frame stay as they are from one state to a later
one, if the context is there in between and no operation, call or store on that
page is taken while it is loaded: whatever is done in other page contexts, and
whichever contexts and frames come and go. -/
theorem pages_isolated {frames : List Nat} {m : Machine} {evs₁ evs₂ : List Event} {k₁ k₂ : Kernel}
    {r v e : Nat} (hb : Booted w frames) (hinit : initKernelPml4Entries w.m = some m)
    (hsole : Sole w.m.mem w.m.phys.regions [w.m.cr3] frames)
    (hallowed : Along kernelStep Allowed ⟨m, [], frames⟩ (evs₁ ++ evs₂))
    (hrun₁ : run kernelStep ⟨m, [], frames⟩ evs₁ = some k₁)
    (hrun₂ : run kernelStep k₁ evs₂ = some k₂) (hv : pml4Index v < 256)
    (helse : Along kernelStep (Elsewhere r v) k₁ evs₂) (hr : r ∈ k₂.roots)
    (he : pageWord k₁.m.mem r v = some e) (hm : Maps k₁.m.phys.regions e) :
    pageWord k₂.m.mem r v = some e ∧
      ∀ a, frame e ≤ a → a < frame e + PAGE_SIZE → k₂.m.mem a = k₁.m.mem a := by
  obtain ⟨w₁, h₁⟩ : ∃ w, Apart k₁ w := by
    refine invariant_along (I := fun k => ∃ w, Apart k w) ?_ (hb.apart hinit hsole)
      (along_left hallowed) hrun₁
    rintro k ev k' ⟨w, hw⟩ ha hs
    exact (kernelStep_apart hw ha hs).1
  exact run_spared h₁ hv (along_right hallowed hrun₁) helse hrun₂ hr he hm

theorem bootSole : Sole bootWorld.m.mem bootWorld.m.phys.regions [bootWorld.m.cr3] [] := by
  have hnone : ∀ v e, pml4Index v < 511 → pageWord bootWorld.m.mem bootWorld.m.cr3 v = some e →
      ¬ Maps bootWorld.m.phys.regions e := by
    intro v e hv he hm
    obtain ⟨t, hf, rfl⟩ := find_of_pageWord he hm.1
    have hin := (bootInv.mapped t (pml1Index v)).mpr ⟨⟨_, bootInv.last hv hf⟩, hm⟩
    exact absurd hin List.not_mem_nil
  refine ⟨List.nodup_nil, ?_, ?_⟩
  · intro r hr v e hv he hm
    exact List.not_mem_nil
  · intro r hr _ _ v _ e _ hv _ he _ hm
    rw [List.mem_singleton.mp hr] at he
    exact absurd hm (hnone v e hv he)

/-- A page is allocated and written in the first context; a second one is made. -/
def apartEvents : List Event :=
  [.call (.allocPage 0x10000000 1 2), .store 0x10000008 77, .op .newCtx, .op .currentCtx]

/-- The same page is allocated and written in the second context. -/
def otherEvents : List Event :=
  [.op (.setCtx 0x1005000), .call (.allocPage 0x10000000 1 2), .store 0x10000008 78,
    .call (.releasePage 0x10000000 1)]

theorem pages_isolated_boot :
    ∃ k₁ k₂ e, run kernelStep ⟨bootWorld.m, [], []⟩ apartEvents = some k₁ ∧
      run kernelStep k₁ otherEvents = some k₂ ∧ k₁.m.cr3 = 0x1000 ∧ k₂.m.cr3 = 0x1005000 ∧
      pageWord k₁.m.mem 0x1000 0x10000000 = some e ∧ k₁.m.mem (frame e + 8) = 77 ∧
      pageWord k₂.m.mem 0x1000 0x10000000 = some e ∧
      ∀ a, frame e ≤ a → a < frame e + PAGE_SIZE → k₂.m.mem a = k₁.m.mem a := by
  have hev : (run kernelStep ⟨bootWorld.m, [], []⟩ apartEvents).any (fun k₁ =>
      decide (k₁.m.cr3 = 0x1000 ∧ k₁.m.mem (frame 0x1001007 + 8) = 77 ∧
        pageWord k₁.m.mem 0x1000 0x10000000 = some 0x1001007 ∧
        Maps k₁.m.phys.regions 0x1001007 ∧
        Along kernelStep (Elsewhere 0x1000 0x10000000) k₁ otherEvents) &&
        (run kernelStep k₁ otherEvents).any fun k₂ =>
          decide (0x1000 ∈ k₂.roots ∧ k₂.m.cr3 = 0x1005000)) = true := by
    decide +kernel
  obtain ⟨k₁, hk₁, hx⟩ := exists_of_any hev
  obtain ⟨hfacts, hx⟩ := Bool.and_eq_true_iff.mp hx
  obtain ⟨hcr3, hbyte, he, hm, helse⟩ := of_decide_eq_true hfacts
  obtain ⟨k₂, hk₂, hroot⟩ := exists_of_any hx
  obtain ⟨hroot, hcr3'⟩ := of_decide_eq_true hroot
  have hallowed : Along kernelStep Allowed ⟨bootWorld.m, [], []⟩ (apartEvents ++ otherEvents) := by
    apply along_of_forall
    intro k ev hev
    simp only [apartEvents, otherEvents, List.cons_append, List.nil_append, List.mem_cons,
      List.not_mem_nil, or_false] at hev
    rcases hev with rfl | rfl | rfl | rfl | rfl | rfl | rfl | rfl <;> trivial
  obtain ⟨hentry, hbytes⟩ := pages_isolated bootBooted (initKernelPml4Entries_full bootInv bootFull)
    bootSole hallowed hk₁ hk₂ (by decide) helse hroot he hm
  exact ⟨k₁, k₂, _, hk₁, hk₂, hcr3, hcr3', he, hbyte, hentry, hbytes⟩

end Crabos.Page
