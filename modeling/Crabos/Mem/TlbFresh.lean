import Crabos.Mem.Tlb

/-!
# Which page functions keep the TLB right

An entry that was not present may be set at any time: no translation used it.
A last entry is cleared before the `invlpg` of its page, and no other page has
that entry. `modify` changes an entry that is present and leaves it at that.
-/
namespace Crabos.Page

open Crabos.Words Crabos.Radix Crabos.Interface Crabos.User Crabos.Run

variable {c c' : Cpu} {w : World}

/-! Frames. -/

theorem find_last {m : Machine} (hself : next (m.mem (slot m.cr3 511)) = some m.cr3) {a virt : Nat}
    (ha : walk m.mem m.cr3 (pml1Entry virt) = some a) :
    ∃ t, find next m.mem m.cr3 (lastTable virt) = some t ∧ a = slot t (pml1Index virt) := by
  rw [points_pml1Entry virt m.mem m.cr3 hself] at ha
  obtain ⟨t, ht, hx⟩ := Option.map_eq_some_iff.mp ha
  exact ⟨t, ht, hx.symm⟩

/-- The last entry of a page changes. -/
theorem Linked.keeps_last {place : Nat → Option (List Nat)} {m m' : Machine} {virt t : Nat}
    (hl : Linked place m.mem) (hr : place m.cr3 = some []) (ht : place t = some (lastTable virt))
    (hcr3 : m'.cr3 = m.cr3)
    (hsame : ∀ u p i, place u = some p → i < 512 → ¬ (u = t ∧ i = pml1Index virt) →
      m'.mem (slot u i) = m.mem (slot u i)) : Keeps (indices virt) m m' := by
  refine hl.keeps hr hcr3 ?_ ?_
  · intro u p i hu hp hlt
    refine hsame u p i hu hlt ?_
    rintro ⟨rfl, -⟩
    rw [← Option.some.inj (ht.symm.trans hu)] at hp
    exact absurd hp (by decide : ¬ 3 < 3)
  · intro u p i hu hne hlt
    refine hsame u p i hu hlt ?_
    rintro ⟨rfl, rfl⟩
    rw [← Option.some.inj (ht.symm.trans hu)] at hne
    exact hne rfl

/-- The allocator changes no table while it works. -/
theorem viaTemp_fresh (hi : Inv w) (hm : c.m = w.m) (hf : c.Fresh) {f : Nat} {p : Phys.PhysMem}
    (hsame : ∀ t q i, w.place t = some q → i < 512 → p.mem (slot t i) = w.m.mem (slot t i))
    (h : c.viaTemp f p = some c') : c'.Fresh := by
  obtain ⟨m, tlb⟩ := c
  cases hm
  obtain ⟨a, ha, h⟩ := Option.bind_eq_some_iff.mp h
  split at h
  · cases h
  · rename_i h0
    cases h
    obtain ⟨t, ht, rfl⟩ := find_last (hi.linked.self _ hi.loaded) ha
    have h0 : w.m.mem (slot t (pml1Index w.m.tempPage)) = 0 := not_not.mp h0
    have hl := hi.last hi.upper.2 ht
    have hnone : next (w.m.mem (slot t (pml1Index w.m.tempPage))) = none := by
      rw [h0]
      rfl
    have hmapped := (hf.set (keeps_update hnone (f ||| (PageFlags.PRESENT ||| PageFlags.WRITE)))).invlpg
      w.m.tempPage
    have hlinked := (hi.write_oneSlot hl (f ||| (PageFlags.PRESENT ||| PageFlags.WRITE))).linked hi
    have hwork : ∀ u q i, w.place u = some q → i < 512 →
        Function.update p.mem (slot t (pml1Index w.m.tempPage))
          (f ||| (PageFlags.PRESENT ||| PageFlags.WRITE)) (slot u i) =
        Function.update w.m.mem (slot t (pml1Index w.m.tempPage))
          (f ||| (PageFlags.PRESENT ||| PageFlags.WRITE)) (slot u i) := by
      intro u q i hu hlt
      rw [Function.update_apply, Function.update_apply, hsame u q i hu hlt]
    refine (hmapped.set ?_).clear ?_
    · exact hlinked.keeps hi.loaded rfl (fun u q i hu _ hlt => hwork u q i hu hlt)
        fun u q i hu _ hlt => hwork u q i hu hlt
    · refine Linked.keeps_last (hlinked.congr fun u q i hu _ hlt => hwork u q i hu hlt) hi.loaded
        hl.1 rfl fun u q i hu hlt hne => ?_
      have hslot : slot u i ≠ slot t (pml1Index w.m.tempPage) := fun he =>
        hne (hi.slot_inj hu hl.1 hlt hl.2.2 he)
      exact (Function.update_of_ne hslot _ _).trans (Function.update_of_ne hslot _ _).symm

theorem Inv.alloc_tables (hi : Inv w) {f : Nat} {p : Phys.PhysMem}
    (ha : Phys.alloc w.m.phys = .ok (.ok f, p)) (t : Nat) (q : List Nat) (i : Nat)
    (ht : w.place t = some q) (hlt : i < 512) : p.mem (slot t i) = w.m.mem (slot t i) := by
  obtain ⟨free, hphys⟩ := hi.phys
  obtain ⟨-, hout⟩ := Phys.alloc_outside ha
  rw [← hi.same] at ha
  rcases Phys.alloc_cases hphys with ⟨e, hx, -⟩ | ⟨hx, -, -⟩ | ⟨g, q', rest, hx, ho, -, hinv⟩
  · rw [hx] at ha
    cases ha
  · rw [hx] at ha
    cases ha
  · rw [hx] at ha
    cases ha
    have hfa : PAGE_SIZE ∣ f := (hinv.frame f (List.mem_append_left _ List.mem_cons_self)).1
    exact hout _ (hi.slot_outside hfa (hi.unowned_no_table ho) ht hlt)

theorem alloc_fresh (hi : Inv w) (hm : c.m = w.m) (hf : c.Fresh) {x : Option Nat}
    (h : c.alloc = some (x, c')) : c'.Fresh := by
  rw [Cpu.alloc] at h
  split at h
  · cases h
  · rename_i p ha
    rw [hm] at ha
    cases h
    have hp : { w.m with phys := p } = w.m := by
      obtain ⟨free, hphys⟩ := hi.phys
      rw [← hi.same] at ha
      rcases Phys.alloc_cases hphys with ⟨e, hx, -⟩ | ⟨hx, -, -⟩ | ⟨g, q', rest, hx, -⟩
      · rw [hx] at ha
        cases ha
      · rw [hx] at ha
        cases ha
        rw [hi.same]
      · rw [hx] at ha
        cases ha
    rw [hm, hp]
    exact hf.set (hm ▸ Keeps.refl [] _)
  · rename_i f p ha
    obtain ⟨c₁, hv, hx⟩ := Option.map_eq_some_iff.mp h
    cases hx
    rw [hm] at ha
    exact viaTemp_fresh hi hm hf (hi.alloc_tables ha) hv

/-- A `Phys` that is dropped: its owner gives it up, or it is not counted. -/
def Droppable (w : World) (f : Nat) : Prop :=
  (∃ s, Dropping w s f) ∨ ¬ Phys.Managed w.m.phys.regions f

theorem Droppable.spec {f : Nat} {m' : Machine} (hd : Droppable w f) (hi : Inv w)
    (h : Page.drop w.m f = some m') :
    ∃ p, m' = { w.m with phys := p } ∧
      ∀ t q i, w.place t = some q → i < 512 → p.mem (slot t i) = w.m.mem (slot t i) := by
  rcases hd with ⟨s, hd⟩ | hn
  · obtain ⟨p, rfl, hdr⟩ := drop_spec hi hd h
    exact ⟨p, rfl, hdr.mem⟩
  · rw [drop_foreign hn] at h
    cases h
    exact ⟨w.m.phys, rfl, fun _ _ _ _ _ => rfl⟩

theorem drop_fresh (hi : Inv w) (hm : c.m = w.m) (hf : c.Fresh) {f : Nat} (hd : Droppable w f)
    (h : c.drop f = some c') : c'.Fresh := by
  have hsame : ∀ p, Phys.drop w.m.phys f = .ok p → ∀ t q i, w.place t = some q → i < 512 →
      p.mem (slot t i) = w.m.mem (slot t i) := by
    intro p hp
    rcases hd with ⟨s, hd⟩ | hn
    · exact (hd.dropped hi hp).mem
    · rw [(Phys.drop_foreign hn).2] at hp
      cases hp
      exact fun _ _ _ _ _ => rfl
  rw [Cpu.drop, hm] at h
  split at h
  · rename_i p _ hp
    cases h
    refine hf.set ?_
    rw [hm]
    exact hi.keeps rfl (hsame p hp)
  · rename_i p _ hp
    exact viaTemp_fresh hi hm hf (hsame p hp) h
  · cases h

/-! Mapping. -/

theorem ensureTable_fresh (hi : Inv w) (hm : c.m = w.m) (hf : c.Fresh) {ent below t i : Nat}
    {is : List Nat} {ok : Bool} (hp : Points ent is i) (hw : Way (is ++ [i]))
    (ht : find next w.m.mem w.m.cr3 is = some t) (h : c.ensureTable ent below = some (ok, c')) :
    c'.Fresh := by
  obtain ⟨e, he, h⟩ := Option.bind_eq_some_iff.mp h
  rw [hm, hi.load_eq hp, ht, Option.map_some, Option.some.injEq] at he
  split at h
  · rename_i h0
    rw [h0] at he
    obtain ⟨⟨x, c₁⟩, ha, h⟩ := Option.bind_eq_some_iff.mp h
    have hf₁ := alloc_fresh hi hm hf ha
    have hspec := alloc_m ha
    rw [hm] at hspec
    rcases alloc_spec hi hspec with ⟨rfl, -⟩ | ⟨f, q, rfl, hm₁, hh⟩
    · cases h
      exact hf₁
    · obtain ⟨c₂, hs, h⟩ := Option.map_eq_some_iff.mp h
      cases h
      obtain ⟨m₂, hm₂, rfl⟩ := Option.map_eq_some_iff.mp hs
      have hway := way_left _ _ hw
      have hplace := hi.linked.placed.place_find hi.loaded hway ht
      have ht₁ : find next (w.hand f q).m.mem (w.hand f q).m.cr3 is = some t :=
        ((hh.sameTables hi).find hi hi.loaded hway).trans ht
      have hst := hh.inv.store_eq (w := w.hand f q) hp (Phys.intoRaw f ||| tableFlags)
      rw [ht₁] at hst
      rw [hm₁] at hm₂
      cases hm₂.symm.trans hst
      refine (hf₁.set ?_).invlpg below
      rw [hm₁]
      refine keeps_update (m := (w.hand f q).m) ?_ _
      change next (q.mem (slot t i)) = none
      rw [hh.mem hi t is i hplace (way_snoc hw).2, he]
      rfl
  · cases h
    exact hf

theorem ensureTables_fresh (hi : Inv w) (hm : c.m = w.m) (hf : c.Fresh) {virt : Nat} {ok : Bool}
    (hv : pml4Index virt < 511) (htop : TopReady w virt)
    (h : c.ensureTables [(pml4Entry virt, pml3Entry virt), (pml3Entry virt, pml2Entry virt),
      (pml2Entry virt, pml1Entry virt)] = some (ok, c')) : c'.Fresh := by
  obtain ⟨⟨ok₁, c₁⟩, h₁, h⟩ := Option.bind_eq_some_iff.mp h
  have hf₁ := ensureTable_fresh hi hm hf (points_pml4Entry virt) (way_one hv) rfl h₁
  obtain ⟨w₁, hm₁, hi₁, -, hok₁⟩ := ensureTable_spec hi (points_pml4Entry virt) (way_one hv)
    rfl (fun _ => htop) (hm ▸ ensureTable_m h₁)
  cases ok₁ with
  | false =>
    cases h
    exact hf₁
  | true =>
  obtain ⟨t₃, hf₃⟩ := hok₁ rfl
  rw [← hm₁] at hf₃
  obtain ⟨⟨ok₂, c₂⟩, h₂, h⟩ := Option.bind_eq_some_iff.mp h
  have hf₂ := ensureTable_fresh hi₁ hm₁.symm hf₁ (points_pml3Entry virt) (way_two hv) hf₃ h₂
  obtain ⟨w₂, hm₂, hi₂, -, hok₂⟩ := ensureTable_spec hi₁ (points_pml3Entry virt) (way_two hv) hf₃
    (fun hnil => by cases hnil) (hm₁ ▸ ensureTable_m h₂)
  cases ok₂ with
  | false =>
    cases h
    exact hf₂
  | true =>
  obtain ⟨t₂, hf₄⟩ := hok₂ rfl
  rw [← hm₂] at hf₄
  obtain ⟨⟨ok₃, c₃⟩, h₃, h⟩ := Option.bind_eq_some_iff.mp h
  have hf₅ := ensureTable_fresh hi₂ hm₂.symm hf₂ (points_pml2Entry virt) (way_lastTable hv) hf₄ h₃
  cases ok₃ with
  | false =>
    cases h
    exact hf₅
  | true =>
    cases h
    exact hf₅

theorem Loose.droppable {f : Nat} (hl : Loose w f) (hi : Inv w) : Droppable w f :=
  .inl ⟨w.s, hl.dropping hi⟩

/-- The frame given to `map` is a `Phys` of the caller, or it is not counted. -/
def Given (w : World) (f : Nat) : Prop := Loose w f ∨ ¬ Phys.Managed w.m.phys.regions f

theorem Given.droppable {f : Nat} (hg : Given w f) (hi : Inv w) : Droppable w f :=
  hg.imp (fun hl => ⟨w.s, hl.dropping hi⟩) id

theorem Given.ext {w' : World} {f : Nat} {h : Half} (hg : Given w f) (he : Ext h w w') :
    Given w' f :=
  hg.imp he.loose fun hn => he.regions ▸ hn

theorem mapFails_fresh (hi : Inv w) (hm : c.m = w.m) (hf : c.Fresh) {f : Nat} (hg : Given w f)
    {e : MapError} {r : Except MapError Unit} (h : c.mapFails f e = some (r, c')) : c'.Fresh := by
  obtain ⟨c₁, hd, h⟩ := Option.map_eq_some_iff.mp h
  cases h
  exact drop_fresh hi hm hf (hg.droppable hi) hd

theorem map_fresh (hi : Inv w) (hm : c.m = w.m) (hf : c.Fresh) {f virt flags : Nat}
    {r : Except MapError Unit} (hv : pml4Index virt < 511) (htop : TopReady w virt)
    (hg : Given w f) (h : c.map f virt flags = some (r, c')) : c'.Fresh := by
  obtain ⟨⟨ok, c₁⟩, h₁, h⟩ := Option.bind_eq_some_iff.mp h
  have hf₁ := ensureTables_fresh hi hm hf hv htop h₁
  obtain ⟨w₁, hm₁, hi₁, hext, hok⟩ := ensureTables_spec hi hv htop (hm ▸ ensureTables_m h₁)
  have hg₁ := hg.ext hext
  cases ok with
  | false => exact mapFails_fresh hi₁ hm₁.symm hf₁ hg₁ h
  | true =>
    obtain ⟨t, ht⟩ := hok rfl
    rw [← hm₁] at ht
    obtain ⟨e, he, h⟩ := Option.bind_eq_some_iff.mp h
    rw [← hm₁, hi₁.load_last ht, Option.some.injEq] at he
    split at h
    · exact mapFails_fresh hi₁ hm₁.symm hf₁ hg₁ h
    · rename_i h0
      rw [← he, ne_eq, not_not] at h0
      obtain ⟨c₂, hs, h⟩ := Option.map_eq_some_iff.mp h
      cases h
      obtain ⟨m₂, hm₂, rfl⟩ := Option.map_eq_some_iff.mp hs
      rw [← hm₁, hi₁.store_last ht] at hm₂
      cases hm₂
      refine (hf₁.set ?_).invlpg virt
      rw [← hm₁]
      refine keeps_update ?_ _
      rw [h0]
      rfl

theorem unmap_fresh (hi : Inv w) (hm : c.m = w.m) (hf : c.Fresh) {virt : Nat}
    {r : Except NotMapped Unit} (hv : pml4Index virt < 511) (h : c.unmap virt = some (r, c')) :
    c'.Fresh := by
  obtain ⟨x, hx, h⟩ := Option.bind_eq_some_iff.mp h
  rw [hm, hi.checked_eq] at hx
  obtain ⟨e, hword, rfl⟩ := Option.map_eq_some_iff.mp hx
  by_cases h0 : e = 0
  · rw [if_pos h0] at h
    cases h
    exact hf
  · rw [if_neg h0] at h
    obtain ⟨t, ht, he⟩ := find_of_pageWord hword h0
    have hl := hi.last hv ht
    obtain ⟨e', he', h⟩ := Option.bind_eq_some_iff.mp h
    rw [hm, hi.load_last ht, he] at he'
    cases he'
    cases hr : rawPhys e with
    | none =>
      rw [hr] at h
      cases h
      exact hf
    | some raw =>
      rw [hr] at h
      have hraw : raw = frame (w.m.mem (slot t (pml1Index virt))) := by
        rw [rawPhys] at hr
        split at hr
        · cases hr
          rw [he]
        · cases hr
      subst hraw
      obtain ⟨c₁, hd, h⟩ := Option.bind_eq_some_iff.mp h
      obtain ⟨c₂, hs, h⟩ := Option.map_eq_some_iff.mp h
      cases h
      obtain ⟨m₂, hm₂, rfl⟩ := Option.map_eq_some_iff.mp hs
      have hdrop : Droppable w (frame (w.m.mem (slot t (pml1Index virt)))) := by
        by_cases hman : Phys.Managed w.m.phys.regions (frame (w.m.mem (slot t (pml1Index virt))))
        · exact .inl ⟨_, hi.dropping_leaf ((hi.mapped t _).mpr ⟨⟨_, hl⟩, he ▸ h0, hman⟩)⟩
        · exact .inr hman
      have hf₁ := drop_fresh hi hm hf hdrop hd
      obtain ⟨p, hp, hsame⟩ := hdrop.spec hi (hm ▸ drop_m hd)
      rw [hp, hi.store_kept hsame hv ht] at hm₂
      cases hm₂
      refine hf₁.clear ?_
      rw [hp]
      have hlinked : Linked w.place p.mem := hi.linked.congr fun u q i hu _ hlt => hsame u q i hu hlt
      refine Linked.keeps_last hlinked hi.loaded hl.1 rfl fun u q i hu hlt hne => ?_
      exact Function.update_of_ne (fun hs => hne (hi.slot_inj hu hl.1 hlt hl.2.2 hs)) _ _

/-- The flags of a page that is present stay as they are. -/
def KeepsFlags (m : Machine) (virt flags : Nat) : Prop :=
  ∀ e, pageWord m.mem m.cr3 virt = some e → e % 2 = 1 → setFlags e flags = e

theorem modify_fresh (hi : Inv w) (hm : c.m = w.m) (hf : c.Fresh) {virt flags : Nat}
    {r : Except NotMapped Unit} (hk : KeepsFlags w.m virt flags)
    (h : c.modify virt flags = some (r, c')) : c'.Fresh := by
  obtain ⟨x, hx, h⟩ := Option.bind_eq_some_iff.mp h
  rw [hm, hi.checked_eq] at hx
  obtain ⟨e, hword, rfl⟩ := Option.map_eq_some_iff.mp hx
  by_cases h0 : e = 0
  · rw [if_pos h0] at h
    cases h
    exact hf
  · rw [if_neg h0] at h
    obtain ⟨t, ht, he⟩ := find_of_pageWord hword h0
    obtain ⟨e', he', h⟩ := Option.bind_eq_some_iff.mp h
    rw [hm, hi.load_last ht, he] at he'
    cases he'
    obtain ⟨c₁, hs, h⟩ := Option.map_eq_some_iff.mp h
    cases h
    obtain ⟨m₂, hm₂, rfl⟩ := Option.map_eq_some_iff.mp hs
    rw [hm, hi.store_last ht] at hm₂
    cases hm₂
    refine hf.set ?_
    rw [hm]
    by_cases hp : e % 2 = 1
    · have hsame : (w.write (slot t (pml1Index virt)) (setFlags e flags)).m.mem = w.m.mem := by
        rw [hk e hword hp, ← he]
        exact Function.update_eq_self _ _
      exact hi.keeps rfl fun u q i _ _ => congrFun hsame _
    · refine keeps_update ?_ _
      rw [he, next, if_neg hp]

/-! Page contexts. -/

theorem newCtx_fresh (hi : Inv w) (hm : c.m = w.m) (hf : c.Fresh) {x : Option Nat}
    (h : c.newCtx = some (x, c')) : c'.Fresh := by
  obtain ⟨⟨y, c₁⟩, ha, h⟩ := Option.bind_eq_some_iff.mp h
  have hf₁ := alloc_fresh hi hm hf ha
  rcases alloc_spec hi (hm ▸ alloc_m ha) with ⟨rfl, -⟩ | ⟨f, q, rfl, hm₁, hh⟩
  · cases h
    exact hf₁
  · obtain ⟨m₂, hcopy, h⟩ := Option.bind_eq_some_iff.mp h
    obtain ⟨c₂, hv, h⟩ := Option.map_eq_some_iff.mp h
    cases h
    rw [hm₁] at hcopy
    obtain ⟨hfresh, hcop⟩ := hh.copied hi hcopy
    refine viaTemp_fresh hh.inv hm₁ hf₁ (fun t p i ht hlt => ?_) hv
    have hout := hh.inv.slot_outside (w := w.hand f q) hh.aligned hfresh ht hlt
    refine (Function.update_of_ne ?_ _ _).trans (hcop.outside _ hout)
    rintro he
    exact hout (he ▸ slot_in_frame (by decide))

theorem setCtx_fresh (hi : Inv w) (hm : c.m = w.m) {ctx : Nat} (hc : ctx ∈ w.ctxs)
    (h : c.setCtx ctx = some c') : c'.Fresh := by
  have hi₁ := hi.switch hc
  have hl := hi₁.forget_loose (c := w.m.cr3) List.mem_cons_self
  have hi₂ := hi₁.forget (c := w.m.cr3) List.mem_cons_self
  rw [Cpu.setCtx, hm] at h
  refine drop_fresh hi₂ ?_ (setCr3_fresh c ctx) (hl.droppable hi₂) h
  rw [setCr3_m, hm]
  rfl

end Crabos.Page
