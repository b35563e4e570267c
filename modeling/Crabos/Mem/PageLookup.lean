import Crabos.Mem.PageSteps

/-!
# Lookups around `map` and `unmap`

The tables of one PML4 are looked at alone here. Every page keeps the last
entry that it has, apart from the page that is mapped or unmapped, and the
reference that the caller gives away is in the entry or is dropped.
-/
namespace Crabos.Page

open Crabos.Words Crabos.Radix Crabos.Interface Crabos.User Crabos.Run

variable {w w' : World}

/-! One PML4 alone. -/

/-- The table is one of those that the loaded PML4 leads to. -/
def Reached (w : World) (t : Nat) : Prop := ∃ is, Way is ∧ find next w.m.mem w.m.cr3 is = some t

open Classical in
/-- Only the loaded PML4 and its tables. -/
noncomputable def World.alone (w : World) : World :=
  { w with
    place := fun t => if Reached w t then w.place t else none
    ctxs := []
    slots := w.slots.filter fun x => Reached w x.1 }

theorem alone_place {t : Nat} {p : List Nat} (h : w.alone.place t = some p) :
    Reached w t ∧ w.place t = some p := by
  simp only [World.alone] at h
  split at h
  · rename_i hr
    exact ⟨hr, h⟩
  · cases h

theorem alone_reached {t : Nat} (h : Reached w t) : w.alone.place t = w.place t := if_pos h

theorem Inv.reached_find (hi : Inv w) {t : Nat} {p : List Nat} (hr : Reached w t)
    (hp : w.place t = some p) : find next w.m.mem w.m.cr3 p = some t := by
  obtain ⟨is, hw, hf⟩ := hr
  have his : some p = some is := hp.symm.trans (hi.linked.placed.place_find hi.loaded hw hf)
  cases his
  exact hf

theorem Inv.alone_root (hi : Inv w) {r : Nat} (h : w.alone.place r = some []) : r = w.m.cr3 := by
  obtain ⟨hr, hp⟩ := alone_place h
  exact (Option.some.inj (hi.reached_find hr hp)).symm

theorem reached_cr3 (w : World) : Reached w w.m.cr3 := ⟨[], way_nil, rfl⟩

theorem Inv.linked_alone (hi : Inv w) : Linked w.alone.place w.m.mem where
  way t p ht := hi.linked.way t p (alone_place ht).2
  child t p i ht hw := by
    obtain ⟨hr, hp⟩ := alone_place ht
    rcases hi.linked.child t p i hp hw with h0 | ⟨u, hu, hpu⟩
    · exact .inl h0
    · refine .inr ⟨u, hu, ?_⟩
      have hru : Reached w u := ⟨p ++ [i], hw, Radix.find_snoc (hi.reached_find hr hp) hu⟩
      rw [alone_reached hru]
      exact hpu
  self t ht := hi.linked.self t (alone_place ht).2
  agree t u i ht hu _ _ := by rw [hi.alone_root ht, hi.alone_root hu]

theorem Inv.alone (hi : Inv w) : Inv w.alone where
  same := hi.same
  phys := hi.phys
  aligned := hi.aligned
  bounded := hi.bounded
  upper := hi.upper
  linked := hi.linked_alone
  loaded := (alone_reached (reached_cr3 w)).trans hi.loaded
  root r hr := by
    rw [hi.alone_root hr]
    exact List.mem_cons_self
  ctx c hc := absurd hc List.not_mem_nil
  table t p ht hp := hi.table t p (alone_place ht).2 hp
  once := hi.once.filter _
  mapped t i := by
    simp only [World.alone, List.mem_filter, decide_eq_true_eq, hi.mapped t i]
    constructor
    · rintro ⟨⟨⟨p, hp, hl⟩, hm⟩, hr⟩
      exact ⟨⟨p, (if_pos hr).trans hp, hl⟩, hm⟩
    · rintro ⟨⟨p, hp, hl⟩, hm⟩
      obtain ⟨hr, hp⟩ := alone_place hp
      exact ⟨⟨⟨p, hp, hl⟩, hm⟩, hr⟩
  held := List.nil_subperm
  backed := by
    have hsub : (leafFrames w.m.mem w.alone.slots).Sublist (leafFrames w.m.mem w.slots) :=
      List.filter_sublist.map _
    exact ((hsub.append_left w.tables).cons_cons w.m.cr3).subperm.trans hi.backed

theorem Inv.alone_topReady (hi : Inv w) (virt : Nat) : TopReady w.alone virt :=
  fun _ _ _ hr => hi.alone_root hr

theorem alone_loose {f : Nat} (hf : f ∈ w.s.live) : Loose w.alone f := ⟨hf, List.nil_subperm⟩

/-! References. -/

/-- The frame has one reference less; after the last one it is the first free frame. -/
def Released (p q : Phys.PhysMem) (f : Nat) : Prop :=
  Phys.Managed p.regions f → q.rc (f / PAGE_SIZE) + 1 = p.rc (f / PAGE_SIZE) ∧
    (q.rc (f / PAGE_SIZE) = 0 → q.nextFree = some f)

theorem Dropped.released {s : Phys.State} {f : Nat} {p : Phys.PhysMem} (h : Dropped w s f p)
    (hd : Dropping w s f) : Released w.m.phys p f := by
  intro hm
  obtain ⟨free, hs⟩ := hd.phys
  obtain ⟨free', hs'⟩ := h.phys
  have ha : PAGE_SIZE ∣ f := (hs.frame f (List.mem_append_left _ hd.live)).1
  have hbefore : w.m.phys.rc (f / PAGE_SIZE) = s.owners.count f := by
    rw [← hd.same] at hm ⊢
    exact hs.counted f hm ha
  have hafter : p.rc (f / PAGE_SIZE) = (s.live.erase f ++ s.raws).count f := by
    rw [← h.regions] at hm
    exact hs'.counted f hm ha
  have hcount := Phys.count_owners_erase s.raws hd.live f
  have hpos : 0 < s.owners.count f := List.count_pos_iff.mpr (List.mem_append_left _ hd.live)
  rw [if_pos rfl] at hcount
  change _ = s.owners.count f - 1 at hcount
  refine ⟨by omega, fun hz => ?_⟩
  have hgone : f ∉ s.live.erase f ++ s.raws := by
    rw [← List.count_eq_zero, ← hafter]
    exact hz
  have hfreed : (s.dropped f p).freed = f :: s.freed := by
    rw [← hd.same] at hm
    exact if_pos ⟨hm, hgone⟩
  have hchain := hs'.chain
  rw [← hs'.freed_eq, hfreed] at hchain
  exact hchain.1

/-- A reference that is not the last one is dropped without the temporary page. -/
theorem drop_total_shared (hi : Inv w) {s : Phys.State} {f : Nat} (hd : Dropping w s f)
    (hmore : Phys.Managed w.m.phys.regions f → w.m.phys.rc (f / PAGE_SIZE) ≠ 1) :
    ∃ m', drop w.m f = some m' := by
  obtain ⟨free, hs⟩ := hd.phys
  have hown : f ∈ s.owners := List.mem_append_left _ hd.live
  have ha : PAGE_SIZE ∣ f := (hs.frame f hown).1
  have hpos : Phys.Managed w.m.phys.regions f → 0 < w.m.phys.rc (f / PAGE_SIZE) := by
    intro hm
    rw [← hd.same] at hm ⊢
    rw [hs.counted f hm ha]
    exact List.count_pos_iff.mpr hown
  have hen : w.m.phys.refCountEnabled = true := by
    rw [← hd.same]
    exact hs.enabled
  rcases Phys.decRef_ok hen ha hpos rfl with ⟨e, -, hx⟩ | ⟨rc, -, ⟨hm, hone, -⟩ | ⟨-, he⟩⟩
  · obtain ⟨g, hg, hm, hmax⟩ := hx.2
    exact absurd (hi.bounded g hg hm) (Nat.not_le.mpr hmax)
  · exact absurd hone (hmore hm)
  · have hp : Phys.drop w.m.phys f = .ok { w.m.phys with rc := rc } := by
      rw [Phys.drop, he]
      rfl
    exact ⟨_, by rw [drop, he, hp]⟩

/-! Whole calls. -/

theorem map_total (hi : Inv w) {f virt : Nat} (fl : Nat) (hv : pml4Index virt < 511)
    (htop : TopReady w virt) (ht : TempFree w.m) (hf : Loose w f) :
    ∃ r m', map w.m f virt fl = some (r, m') := by
  obtain ⟨ok, m₁, h₁⟩ := ensureTables_total hi hv htop ht
  obtain ⟨w₁, rfl, hi₁, hext, hok⟩ := ensureTables_spec hi hv htop h₁
  obtain ⟨m₂, hdrop⟩ := drop_total hi₁ (hext.tempFree hi hi₁ ht) ((hext.loose hf).dropping hi₁)
  rw [map, h₁, Option.bind_some]
  cases ok with
  | false =>
    simp only [mapFails, hdrop]
    exact ⟨_, _, rfl⟩
  | true =>
    obtain ⟨t, hft⟩ := hok rfl
    simp only [mapLast, hi₁.load_last hft, Option.bind_some]
    split
    · simp only [mapFails, hdrop]
      exact ⟨_, _, rfl⟩
    · rw [hi₁.store_last hft]
      exact ⟨_, _, rfl⟩

/-- A page that maps an address can be unmapped while the temporary page is
free or the frame has another reference. -/
theorem unmap_total (hi : Inv w) {virt t : Nat} (hv : pml4Index virt < 511)
    (hf : find next w.m.mem w.m.cr3 (lastTable virt) = some t)
    (h0 : frame (w.m.mem (slot t (pml1Index virt))) ≠ 0)
    (hfree : TempFree w.m ∨ ∀ f, f = frame (w.m.mem (slot t (pml1Index virt))) →
      Phys.Managed w.m.phys.regions f → w.m.phys.rc (f / PAGE_SIZE) ≠ 1) :
    ∃ m', unmap w.m virt = some (.ok (), m') := by
  have hl := hi.last hv hf
  have hword : pageWord w.m.mem w.m.cr3 virt = some (w.m.mem (slot t (pml1Index virt))) := by
    rw [hi.linked.pageWord_eq hi.loaded hv, hf]
    rfl
  rw [hi.unmap_eq hf h0 hword]
  by_cases hm : Phys.Managed w.m.phys.regions (frame (w.m.mem (slot t (pml1Index virt))))
  · have hin : (t, pml1Index virt) ∈ w.slots :=
      (hi.mapped t _).mpr ⟨⟨_, hl⟩, fun hz => h0 (by rw [hz]; rfl), hm⟩
    have hd := hi.dropping_leaf hin
    have hdrop : ∃ m', drop w.m (frame (w.m.mem (slot t (pml1Index virt)))) = some m' := by
      rcases hfree with ht | hmore
      · exact drop_total hi ht hd
      · exact drop_total_shared hi hd (hmore _ rfl)
    obtain ⟨m₁, hm₁⟩ := hdrop
    obtain ⟨p, rfl, hdr⟩ := drop_spec hi hd hm₁
    rw [hm₁, Option.bind_some, hi.store_kept hdr.mem hv hf]
    exact ⟨_, rfl⟩
  · rw [drop_foreign hm, Option.bind_some, hi.store_last hf]
    exact ⟨_, rfl⟩

/-! Entries of pages. -/

section entries

variable {f virt fl : Nat}

theorem MapEnd.other {r : Except MapError Unit} (h : MapEnd w f virt fl r w') {root v : Nat}
    (hv' : pml4Index virt < 511) (hr : w.place root = some [])
    (hv : pml4Index v < 511) (hne : r = .ok () → indices v ≠ indices virt) :
    pageWord w'.m.mem root v = pageWord w.m.mem root v := by
  cases h with
  | done ext inv last empty =>
    rw [← ext.words root v hr hv]
    refine (mapTo_oneSlot inv (inv.last hv' last) f fl).pageWord_other inv
      (ext.places _ _ hr) hv ?_
    rintro ⟨h₁, h₂⟩
    exact hne rfl (indices_inj h₁ h₂)
  | fails ext inv dropped used =>
    rw [← ext.words root v hr hv]
    exact dropped.sameTables.pageWord inv (ext.places _ _ hr) hv

theorem MapEnd.self (h : MapEnd w f virt fl (.ok ()) w') (hv : pml4Index virt < 511) :
    pageWord w'.m.mem w'.m.cr3 virt = some (f ||| fl) := by
  cases h with
  | done ext inv last empty =>
    have h1 := mapTo_oneSlot inv (inv.last hv last) f fl
    refine (h1.pageWord_self inv inv.loaded hv last rfl).trans ?_
    exact congrArg some (write_self _ _ _)

/-- The page was free before it was mapped. -/
theorem MapEnd.free (h : MapEnd w f virt fl (.ok ()) w') (hi : Inv w) (hv : pml4Index virt < 511) :
    pageWord w.m.mem w.m.cr3 virt = some 0 := by
  cases h with
  | done ext inv last empty =>
    rw [← ext.words _ virt hi.loaded hv, ← ext.cr3, inv.linked.pageWord_eq inv.loaded hv, last]
    exact congrArg some empty

/-- Only a page with an entry is already mapped. -/
theorem MapEnd.used (h : MapEnd w f virt fl (.error .alreadyMapped) w') (hi : Inv w)
    (hv : pml4Index virt < 511) :
    ∃ t, find next w.m.mem w.m.cr3 (lastTable virt) = some t ∧
      w.m.mem (slot t (pml1Index virt)) ≠ 0 := by
  cases h with
  | @fails w₁ _ _ ext inv dropped used =>
    obtain ⟨t, ht, h0⟩ := used rfl
    have hword : pageWord w.m.mem w.m.cr3 virt = some (w₁.m.mem (slot t (pml1Index virt))) := by
      rw [← ext.words _ virt hi.loaded hv, ← ext.cr3, inv.linked.pageWord_eq inv.loaded hv, ht]
      rfl
    obtain ⟨u, hu, he⟩ := find_of_pageWord hword h0
    exact ⟨u, hu, he ▸ h0⟩

theorem MapEnd.same {r : Except MapError Unit} (h : MapEnd w f virt fl r w') :
    w'.m.cr3 = w.m.cr3 ∧ w'.m.tempPage = w.m.tempPage ∧
      w'.m.phys.regions = w.m.phys.regions := by
  cases h with
  | done ext inv last empty => exact ⟨ext.cr3, ext.tempPage, ext.regions⟩
  | fails ext inv dropped used => exact ⟨ext.cr3, ext.tempPage, dropped.regions.trans ext.regions⟩

theorem Ext.rc {h : Half} (he : Ext h w w') (hi : Inv w) (hi' : Inv w') (hf : f ∈ w.s.owners)
    (hm : Phys.Managed w.m.phys.regions f) :
    w'.m.phys.rc (f / PAGE_SIZE) = w.m.phys.rc (f / PAGE_SIZE) := by
  obtain ⟨free, hs⟩ := hi.phys
  obtain ⟨free', hs'⟩ := hi'.phys
  have ha : PAGE_SIZE ∣ f := (hs.frame f hf).1
  rw [← hi.same] at hm ⊢
  rw [hs.counted f hm ha, ← he.counts hf, ← hi'.same]
  refine hs'.counted f ?_ ha
  rw [hi'.same, he.regions, ← hi.same]
  exact hm

theorem Released.trans_rc {p q r : Phys.PhysMem} (h : Released q r f) (hreg : q.regions = p.regions)
    (hrc : Phys.Managed p.regions f → q.rc (f / PAGE_SIZE) = p.rc (f / PAGE_SIZE)) :
    Released p r f := by
  intro hm
  rw [← hrc hm]
  exact h (hreg ▸ hm)

theorem MapEnd.rc (h : MapEnd w f virt fl (.ok ()) w') (hi : Inv w) (hf : f ∈ w.s.owners)
    (hm : Phys.Managed w.m.phys.regions f) :
    w'.m.phys.rc (f / PAGE_SIZE) = w.m.phys.rc (f / PAGE_SIZE) := by
  cases h with
  | done ext inv last empty => exact ext.rc hi inv hf hm

/-- A `map` that fails drops the reference it was given. -/
theorem MapEnd.released {e : MapError} (h : MapEnd w f virt fl (.error e) w') (hi : Inv w)
    (hf : Loose w f) : Released w.m.phys w'.m.phys f := by
  cases h with
  | fails ext inv dropped used =>
    refine (dropped.released ((ext.loose hf).dropping inv)).trans_rc ext.regions ?_
    exact ext.rc hi inv (List.mem_append_left _ hf.mem)

theorem UnmapEnd.other {r : Except NotMapped Unit} (h : UnmapEnd w virt r w') (hi : Inv w)
    {root v : Nat} (hv' : pml4Index virt < 511) (hr : w.place root = some [])
    (hv : pml4Index v < 511) (hne : indices v ≠ indices virt) :
    pageWord w'.m.mem root v = pageWord w.m.mem root v := by
  have hidx : ¬ (lastTable v = lastTable virt ∧ pml1Index v = pml1Index virt) :=
    fun hx => hne (indices_inj hx.1 hx.2)
  cases h with
  | fails word none => rfl
  | done last entry some managed dropped =>
    exact (clear_oneSlot hi (hi.last hv' last) dropped).pageWord_other hi hr hv hidx
  | foreign last some outside =>
    exact (hi.write_oneSlot (hi.last hv' last) 0).pageWord_other hi hr hv hidx

theorem UnmapEnd.self (h : UnmapEnd w virt (.ok ()) w') (hi : Inv w) (hv : pml4Index virt < 511) :
    pageWord w'.m.mem w'.m.cr3 virt = some 0 := by
  cases h with
  | done last entry some managed dropped =>
    have h1 := clear_oneSlot hi (hi.last hv last) dropped
    refine (h1.pageWord_self hi hi.loaded hv last rfl).trans ?_
    exact congrArg Option.some (Function.update_self _ _ _)
  | foreign last some outside =>
    have h1 := hi.write_oneSlot (hi.last hv last) 0
    refine (h1.pageWord_self hi hi.loaded hv last rfl).trans ?_
    exact congrArg Option.some (write_self _ _ _)

theorem UnmapEnd.cr3 {r : Except NotMapped Unit} (h : UnmapEnd w virt r w') :
    w'.m.cr3 = w.m.cr3 := by
  cases h with
  | fails word none => rfl
  | done last entry some managed dropped => rfl
  | foreign last some outside => rfl

/-- `unmap` drops the reference in the entry. -/
theorem UnmapEnd.released (h : UnmapEnd w virt (.ok ()) w') (hi : Inv w) {t : Nat}
    (hv : pml4Index virt < 511) (hf : find next w.m.mem w.m.cr3 (lastTable virt) = some t) :
    Released w.m.phys w'.m.phys (frame (w.m.mem (slot t (pml1Index virt)))) := by
  cases h with
  | done last entry some managed dropped =>
    cases last.symm.trans hf
    subst entry
    have hin := (hi.mapped _ _).mpr ⟨⟨_, hi.last hv hf⟩, fun hz => some (by rw [hz]; rfl), managed⟩
    exact dropped.released (hi.dropping_leaf hin)
  | foreign last some outside =>
    cases last.symm.trans hf
    exact fun hm => absurd hm outside

end entries

/-! Both functions. -/

/-- After a successful `map`, the entry can be taken back. -/
theorem unmap_after_map {f virt fl : Nat} (hi : Inv w) (h : MapEnd w f virt fl (.ok ()) w')
    (hv : pml4Index virt < 511) (hf : Loose w f) (h0 : f ≠ 0) (hfl : fl < PAGE_SIZE)
    (ht : TempFree w.m)
    (hlast : indices virt = indices w.m.tempPage → Phys.Managed w.m.phys.regions f →
      w.m.phys.rc (f / PAGE_SIZE) ≠ 1) :
    ∃ m'', unmap w'.m virt = some (.ok (), m'') ∧
      (∀ v, pml4Index v < 511 → pageWord m''.mem m''.cr3 v = pageWord w.m.mem w.m.cr3 v) ∧
      Released w.m.phys m''.phys f := by
  have hi' : Inv w' := h.inv hv hf hfl
  obtain ⟨hcr3, htemp, hreg⟩ := h.same
  obtain ⟨t, hft, het⟩ : ∃ t, find next w'.m.mem w'.m.cr3 (lastTable virt) = some t ∧
      frame (w'.m.mem (slot t (pml1Index virt))) = f := by
    have ha : PAGE_SIZE ∣ f := by
      obtain ⟨free, hs⟩ := hi.phys
      exact (hs.frame f (List.mem_append_left _ hf.mem)).1
    have hne : f ||| fl ≠ 0 := fun hz => h0 (Nat.or_eq_zero_iff.mp hz).1
    obtain ⟨t, hft, he⟩ := find_of_pageWord (h.self hv) hne
    exact ⟨t, hft, by rw [he, frame_or f hfl, frame_aligned ha]⟩
  have hrc := h.rc hi (List.mem_append_left _ hf.mem)
  have hfree : TempFree w'.m ∨ ∀ g, g = frame (w'.m.mem (slot t (pml1Index virt))) →
      Phys.Managed w'.m.phys.regions g → w'.m.phys.rc (g / PAGE_SIZE) ≠ 1 := by
    by_cases htp : indices virt = indices w.m.tempPage
    · refine .inr ?_
      rintro g rfl hm
      rw [het, hreg] at hm
      rw [het, hrc hm]
      exact hlast htp hm
    · refine .inl ?_
      cases h with
      | done ext inv last empty =>
        refine (mapTo_oneSlot inv (inv.last hv last) f fl).tempFree inv (ext.tempFree hi inv ht) ?_
        rintro ⟨h₁, h₂⟩
        rw [ext.tempPage] at h₁ h₂
        exact htp (indices_inj h₁ h₂).symm
  obtain ⟨m'', hu⟩ := unmap_total hi' hv hft (by rw [het]; exact h0) hfree
  obtain ⟨w'', rfl, hend⟩ := unmap_spec hi' hv hu
  have hroot : w'.place w.m.cr3 = some [] := by
    rw [← hcr3]
    exact hi'.loaded
  refine ⟨w''.m, hu, fun v hlt => ?_, ?_⟩
  · rw [hend.cr3, hcr3]
    by_cases hsame : indices v = indices virt
    · have hself := hend.self hi' hv
      rw [hend.cr3, hcr3] at hself
      rw [pageWord_indices hsame, pageWord_indices hsame, hself, h.free hi hv]
    · rw [hend.other hi' hv hroot hlt hsame]
      exact h.other hv hi.loaded hlt fun _ => hsame
  · have hrel := hend.released hi' hv hft
    rw [het] at hrel
    exact hrel.trans_rc hreg hrc

/-- What `map` and a following `unmap` do to the lookups of all pages, for any
shape of the tables and any point at which memory runs out. The temporary page
is free before, and it is not the page whose last reference `unmap` drops. -/
theorem map_unmap_lookups {f virt fl : Nat} (hi : Inv w) (ht : TempFree w.m) (hf : f ∈ w.s.live)
    (h0 : f ≠ 0) (hv : pml4Index virt < 511) (hfl : fl ≤ PageFlags.all) :
    ∃ r m', map w.m f virt fl = some (r, m') ∧
      (r = .error .alreadyMapped →
        ∃ t, find next w.m.mem w.m.cr3 (lastTable virt) = some t ∧
          w.m.mem (slot t (pml1Index virt)) ≠ 0) ∧
      (∀ e, r = .error e →
        (∀ v, pml4Index v < 511 → pageWord m'.mem m'.cr3 v = pageWord w.m.mem w.m.cr3 v) ∧
        Released w.m.phys m'.phys f) ∧
      (r = .ok () →
        pageWord m'.mem m'.cr3 virt = some (f ||| fl) ∧
        (∀ v, pml4Index v < 511 → indices v ≠ indices virt →
          pageWord m'.mem m'.cr3 v = pageWord w.m.mem w.m.cr3 v) ∧
        ((indices virt = indices w.m.tempPage → Phys.Managed w.m.phys.regions f →
            w.m.phys.rc (f / PAGE_SIZE) ≠ 1) →
          ∃ m'', unmap m' virt = some (.ok (), m'') ∧
            (∀ v, pml4Index v < 511 → pageWord m''.mem m''.cr3 v = pageWord w.m.mem w.m.cr3 v) ∧
            Released w.m.phys m''.phys f)) := by
  have hloose := alone_loose hf
  have hlt : fl < PAGE_SIZE := Nat.lt_of_le_of_lt hfl (by decide)
  obtain ⟨r, m', hmap⟩ := map_total hi.alone fl hv (hi.alone_topReady virt) ht hloose
  obtain ⟨w', rfl, hend⟩ := map_spec hi.alone hv (hi.alone_topReady virt) hloose hmap
  have hcr3 : w'.m.cr3 = w.m.cr3 := hend.same.1
  refine ⟨r, w'.m, hmap, ?_, ?_, ?_⟩
  · rintro rfl
    exact hend.used hi.alone hv
  · rintro e rfl
    refine ⟨fun v hlt' => ?_, hend.released hi.alone hloose⟩
    rw [hcr3]
    exact hend.other hv hi.alone.loaded hlt' fun hx => by cases hx
  · rintro rfl
    refine ⟨hend.self hv, fun v hlt' hne => ?_, fun hlast => ?_⟩
    · rw [hcr3]
      exact hend.other hv hi.alone.loaded hlt' fun _ => hne
    · exact unmap_after_map (w := w.alone) hi.alone hend hv hloose h0 hlt ht hlast

/-! A machine as `main` leaves it: a PML4 with all tables of the kernel below
it, the temporary page at the start of the kernel half, and sixteen frames. -/

def kernelTable (i : Nat) : Nat := 0x200000 + 0x1000 * i

def bootMem : Mem := fun a =>
  if a = 0x1ff8 then 0x1001
  else if 0x1800 ≤ a ∧ a < 0x1ff8 ∧ a % 8 = 0 then kernelTable ((a - 0x1000) / 8) + 7
  else if a = kernelTable 256 then 0x2007
  else if a = 0x2000 then 0x3007
  else 0

def bootPlace (t : Nat) : Option (List Nat) :=
  if t = 0x1000 then some []
  else if t = 0x2000 then some [256, 0]
  else if t = 0x3000 then some [256, 0, 0]
  else if t % 0x1000 = 0 ∧ kernelTable 256 ≤ t ∧ t < kernelTable 511 then
    some [(t - 0x200000) / 0x1000]
  else none

def bootTables : List Nat := 0x2000 :: 0x3000 :: kernelSlots.map kernelTable

/-- The caller holds the first frame. -/
def bootWorld : World where
  m :=
    { phys :=
        { regions := [⟨0x1000000, 0x1010000⟩]
          bumpAlloc := [0x1001000]
          refCountEnabled := true
          nextFree := none
          rc := fun n => if n = 0x1000 then 1 else 0
          mem := bootMem }
      cr3 := 0x1000
      tempPage := 0xffff800000000000 }
  s :=
    { p :=
        { regions := [⟨0x1000000, 0x1010000⟩]
          bumpAlloc := [0x1001000]
          refCountEnabled := true
          nextFree := none
          rc := fun n => if n = 0x1000 then 1 else 0
          mem := bootMem }
      live := [0x1000000]
      raws := 0x1000 :: bootTables
      allocated := 0x1000000 :: 0x1000 :: bootTables
      freed := [] }
  place := bootPlace
  ctxs := []
  tables := bootTables
  slots := []

theorem next_kernelTable (i : Nat) : next (kernelTable i + 7) = some (kernelTable i) := by
  rw [next, if_pos (by simp only [kernelTable]; omega), frame]
  simp only [kernelTable, PAGE_SIZE, Option.some.injEq]
  omega

theorem bootPlace_cases {t : Nat} {p : List Nat} (h : bootPlace t = some p) :
    (t = 0x1000 ∧ p = []) ∨ (t = 0x2000 ∧ p = [256, 0]) ∨ (t = 0x3000 ∧ p = [256, 0, 0]) ∨
      ∃ i, 256 ≤ i ∧ i < 511 ∧ t = kernelTable i ∧ p = [i] := by
  rw [bootPlace] at h
  split at h
  · rename_i ht
    cases h
    exact .inl ⟨ht, rfl⟩
  split at h
  · rename_i ht
    cases h
    exact .inr (.inl ⟨ht, rfl⟩)
  split at h
  · rename_i ht
    cases h
    exact .inr (.inr (.inl ⟨ht, rfl⟩))
  split at h
  · rename_i ht
    cases h
    simp only [kernelTable] at ht ⊢
    exact .inr (.inr (.inr ⟨(t - 0x200000) / 0x1000, by omega, by omega, by omega, rfl⟩))
  · cases h

theorem bootPlace_kernelTable {i : Nat} (h₁ : 256 ≤ i) (h₂ : i < 511) :
    bootPlace (kernelTable i) = some [i] := by
  rw [bootPlace, if_neg (by simp only [kernelTable]; omega),
    if_neg (by simp only [kernelTable]; omega), if_neg (by simp only [kernelTable]; omega),
    if_pos (by simp only [kernelTable]; omega)]
  simp only [kernelTable, Option.some.injEq, List.cons.injEq, and_true]
  omega

theorem bootMem_kernelSlot {i : Nat} (h₁ : 256 ≤ i) (h₂ : i < 511) :
    bootMem (slot 0x1000 i) = kernelTable i + 7 := by
  rw [bootMem, if_neg (by simp only [slot]; omega), if_pos (by simp only [slot]; omega)]
  simp only [slot, kernelTable]
  omega

theorem bootLinked : Linked bootPlace bootMem where
  way t p ht := by
    rcases bootPlace_cases ht with ⟨-, rfl⟩ | ⟨-, rfl⟩ | ⟨-, rfl⟩ | ⟨i, h₁, h₂, -, rfl⟩
    · exact way_nil
    · exact ⟨by decide, by decide, by decide⟩
    · exact ⟨by decide, by decide, by decide⟩
    · refine ⟨by simp, ?_, ?_⟩
      · simp only [List.mem_singleton, forall_eq]
        omega
      · simp only [List.head?_cons, ne_eq, Option.some.injEq]
        omega
  child t p i ht hw := by
    have hlt := (way_snoc hw).2
    rcases bootPlace_cases ht with ⟨rfl, rfl⟩ | ⟨rfl, rfl⟩ | ⟨rfl, rfl⟩ | ⟨j, h₁, h₂, rfl, rfl⟩
    · have hne : i ≠ 511 := by
        rintro rfl
        exact hw.2.2 rfl
      by_cases h256 : 256 ≤ i
      · refine .inr ⟨kernelTable i, ?_, bootPlace_kernelTable h256 (by omega)⟩
        rw [bootMem_kernelSlot h256 (by omega)]
        exact next_kernelTable i
      · refine .inl ?_
        rw [bootMem, if_neg, if_neg, if_neg, if_neg]
        all_goals
          simp only [slot, kernelTable]
          omega
    · by_cases h0 : i = 0
      · subst h0
        exact .inr ⟨0x3000, rfl, rfl⟩
      · refine .inl ?_
        rw [bootMem, if_neg, if_neg, if_neg, if_neg]
        all_goals
          simp only [slot, kernelTable]
          omega
    · exact absurd (way_snoc hw).1 (by decide)
    · by_cases h0 : j = 256 ∧ i = 0
      · obtain ⟨rfl, rfl⟩ := h0
        exact .inr ⟨0x2000, rfl, rfl⟩
      · refine .inl ?_
        rw [bootMem, if_neg, if_neg, if_neg, if_neg]
        all_goals
          simp only [slot, kernelTable]
          omega
  self t ht := by
    rcases bootPlace_cases ht with ⟨rfl, -⟩ | ⟨-, hp⟩ | ⟨-, hp⟩ | ⟨j, -, -, -, hp⟩
    · rfl
    · cases hp
    · cases hp
    · cases hp
  agree t u i ht hu _ _ := by
    have hroot : ∀ r, bootPlace r = some [] → r = 0x1000 := by
      intro r hr
      rcases bootPlace_cases hr with ⟨rfl, -⟩ | ⟨-, hp⟩ | ⟨-, hp⟩ | ⟨j, -, -, -, hp⟩
      · rfl
      · cases hp
      · cases hp
      · cases hp
    rw [hroot t ht, hroot u hu]

/-- No table of the machine lies in the region of the allocator. -/
theorem bootTables_low {t : Nat} (h : t ∈ 0x1000 :: bootTables) : PAGE_SIZE ∣ t ∧ t < 0x1000000 := by
  rw [List.mem_cons, bootTables, List.mem_cons, List.mem_cons, List.mem_map] at h
  rcases h with rfl | rfl | rfl | ⟨i, hi, rfl⟩
  · exact ⟨by decide, by decide⟩
  · exact ⟨by decide, by decide⟩
  · exact ⟨by decide, by decide⟩
  · obtain ⟨-, hlt⟩ := List.mem_range'_1.mp hi
    simp only [kernelTable, PAGE_SIZE]
    omega

theorem bootPhys : Phys.Inv bootWorld.s [] := by
  refine Phys.start_inv ⟨rfl, ?_, List.pairwise_singleton _ _, ?_, ?_, ?_, rfl, ?_, rfl⟩
  · intro r hr
    rw [List.mem_singleton.mp hr]
    decide
  · exact .cons ⟨by decide, by decide, by decide, by decide⟩ .nil
  · intro f hf
    rcases List.mem_cons.mp hf with rfl | hf
    · refine ⟨by decide, ?_⟩
      rintro ⟨rb, hrb, hfresh⟩
      rw [List.mem_singleton.mp hrb] at hfresh
      exact absurd hfresh (by decide)
    · obtain ⟨ha, hlow⟩ := bootTables_low hf
      refine ⟨ha, ?_⟩
      rintro ⟨rb, hrb, hge, -⟩
      rw [List.mem_singleton.mp hrb] at hge
      simp only at hge
      omega
  · intro f hm ha
    obtain ⟨r, hr, hb, he⟩ := hm
    rw [List.mem_singleton.mp hr] at hb he
    simp only at hb he
    have hnot : f ∉ 0x1000 :: bootTables := fun hx => by
      have := (bootTables_low hx).2
      omega
    have hdiv : f / PAGE_SIZE = 0x1000 ↔ 0x1000000 = f := by
      simp only [PAGE_SIZE] at ha ⊢
      omega
    change (if f / PAGE_SIZE = 0x1000 then 1 else 0) = (0x1000000 :: 0x1000 :: bootTables).count f
    rw [List.count_cons, List.count_eq_zero_of_not_mem hnot]
    simp only [hdiv, beq_iff_eq, Nat.zero_add]
  · exact fun f hf => hf

theorem bootInv : Inv bootWorld where
  same := rfl
  phys := ⟨[], bootPhys⟩
  aligned r hr := by
    rw [List.mem_singleton.mp hr]
    decide
  bounded f _ hm := by
    obtain ⟨r, hr, -, he⟩ := hm
    rw [List.mem_singleton.mp hr] at he
    exact he.le.trans (by decide)
  upper := by decide
  linked := bootLinked
  loaded := rfl
  root r hr := by
    rcases bootPlace_cases hr with ⟨rfl, -⟩ | ⟨-, hp⟩ | ⟨-, hp⟩ | ⟨j, -, -, -, hp⟩
    · exact List.mem_cons_self
    · cases hp
    · cases hp
    · cases hp
  ctx c hc := absurd hc List.not_mem_nil
  table t p ht hp := by
    rcases bootPlace_cases ht with ⟨-, rfl⟩ | ⟨rfl, -⟩ | ⟨rfl, -⟩ | ⟨i, h₁, h₂, rfl, -⟩
    · exact absurd rfl hp
    · exact List.mem_cons_self
    · exact List.mem_cons_of_mem _ List.mem_cons_self
    · refine List.mem_cons_of_mem _ (List.mem_cons_of_mem _ (List.mem_map_of_mem ?_))
      exact List.mem_range'_1.mpr ⟨h₁, h₂⟩
  once := List.nodup_nil
  mapped t i := by
    refine ⟨fun hx => absurd hx List.not_mem_nil, ?_⟩
    rintro ⟨⟨p, hp, hlen, hlt⟩, h0, -⟩
    rcases bootPlace_cases hp with ⟨-, rfl⟩ | ⟨-, rfl⟩ | ⟨rfl, -⟩ | ⟨j, -, -, -, rfl⟩
    · cases hlen
    · cases hlen
    · refine absurd ?_ h0
      change bootMem (slot 0x3000 i) = 0
      rw [bootMem, if_neg, if_neg, if_neg, if_neg]
      all_goals
        simp only [slot, kernelTable]
        omega
    · cases hlen
  held := List.nil_subperm
  backed := by
    change (0x1000 :: (bootTables ++ [])).Subperm (0x1000 :: bootTables)
    rw [List.append_nil]

theorem bootTempFree : TempFree bootWorld.m := ⟨0x3000, by decide, by decide⟩

/-- A frame is mapped at the first page of the user half and unmapped again. -/
theorem map_unmap_lookups_boot :
    ∃ r m', map bootWorld.m 0x1000000 0x10000000 7 = some (r, m') ∧
      (r = .error .alreadyMapped →
        ∃ t, find next bootWorld.m.mem bootWorld.m.cr3 (lastTable 0x10000000) = some t ∧
          bootWorld.m.mem (slot t (pml1Index 0x10000000)) ≠ 0) ∧
      (∀ e, r = .error e →
        (∀ v, pml4Index v < 511 →
          pageWord m'.mem m'.cr3 v = pageWord bootWorld.m.mem bootWorld.m.cr3 v) ∧
        Released bootWorld.m.phys m'.phys 0x1000000) ∧
      (r = .ok () →
        pageWord m'.mem m'.cr3 0x10000000 = some (0x1000000 ||| 7) ∧
        (∀ v, pml4Index v < 511 → indices v ≠ indices 0x10000000 →
          pageWord m'.mem m'.cr3 v = pageWord bootWorld.m.mem bootWorld.m.cr3 v) ∧
        ((indices 0x10000000 = indices bootWorld.m.tempPage →
            Phys.Managed bootWorld.m.phys.regions 0x1000000 →
            bootWorld.m.phys.rc (0x1000000 / PAGE_SIZE) ≠ 1) →
          ∃ m'', unmap m' 0x10000000 = some (.ok (), m'') ∧
            (∀ v, pml4Index v < 511 →
              pageWord m''.mem m''.cr3 v = pageWord bootWorld.m.mem bootWorld.m.cr3 v) ∧
            Released bootWorld.m.phys m''.phys 0x1000000)) :=
  map_unmap_lookups bootInv bootTempFree List.mem_cons_self (by decide) (by decide) (by decide)

/-- The last reference to a frame cannot be dropped through the page that it is
mapped at: the temporary page is in use. -/
theorem unmap_temp_page_panics :
    ¬ ∀ (w : World) (f virt fl : Nat) (m' : Machine), Inv w → TempFree w.m → f ∈ w.s.live →
      f ≠ 0 → pml4Index virt < 511 → fl ≤ PageFlags.all →
      map w.m f virt fl = some (.ok (), m') → ∃ m'', unmap m' virt = some (.ok (), m'') := by
  intro h
  have hmap : ∃ m', map bootWorld.m 0x1000000 0xffff800000000000 3 = some (.ok (), m') ∧
      unmap m' 0xffff800000000000 = none := ⟨_, rfl, rfl⟩
  obtain ⟨m', hm, hu⟩ := hmap
  obtain ⟨m'', hx⟩ := h bootWorld 0x1000000 0xffff800000000000 3 m' bootInv bootTempFree
    List.mem_cons_self (by decide) (by decide) (by decide) hm
  rw [hu] at hx
  cases hx

end Crabos.Page
