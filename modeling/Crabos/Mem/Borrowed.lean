import Crabos.Mem.Overlay

/-!
# Memory that is mapped and released again

`ReleasePage` takes the entries of `MapPhysicalMemory` off the tables and gives
the references back. A frame without an owner has only the reference of its
page, so it goes to the free list, where it may be already.
-/
namespace Crabos.Page

open Crabos.Words Crabos.Radix Crabos.Interface Crabos.User Crabos.Run

/-! The drop of a reference. -/

/-- The frame is put on the free list. -/
def pushFrame (m : Machine) (f : Nat) : Machine :=
  { m with phys := { m.phys with
      mem := Phys.writeLink m.mem f m.phys.nextFree
      nextFree := some f } }

/-- A machine with the tables and the counts of the world. -/
structure Base (w : World) (m : Machine) : Prop where
  alike : Alike w m
  regions : m.phys.regions = w.m.phys.regions
  counts : m.phys.rc = w.m.phys.rc
  enabled : m.phys.refCountEnabled = true

theorem Inv.base {w : World} (hi : Inv w) : Base w w.m := by
  obtain ⟨free, hphys⟩ := hi.phys
  exact ⟨.refl w, rfl, rfl, hi.same ▸ hphys.enabled⟩

section drop

variable {w : World} {m : Machine} {fs : List Nat} {ps : List (Nat × Nat)} {f : Nat}

/-- A frame without an owner is no table. -/
theorem Inv.unshareable_no_table (hi : Inv w) (hf : PAGE_SIZE ∣ f)
    (h : ¬ Shareable w.m.phys f) : w.place f = none := by
  apply hi.unowned_no_table
  intro hown
  apply h
  intro hm
  rw [hi.rc_eq hm hf]
  exact List.count_pos_iff.mpr hown

theorem Base.push (hb : Base w m) (hi : Inv w) (hf : PAGE_SIZE ∣ f) (hn : w.place f = none) :
    Base w (pushFrame m f) := by
  refine ⟨⟨hb.alike.cr3, hb.alike.tempPage, fun t p i ht hlt => ?_⟩, hb.regions, hb.counts,
    hb.enabled⟩
  rw [← hb.alike.words t p i ht hlt]
  exact Phys.writeLink_outside _ _ _ _ (hi.slot_outside hf hn ht hlt)

/-- The reference of a page goes, and it was the last one of a frame without an owner. -/
theorem decRef_lay {p : Phys.PhysMem} (ps : List (Nat × Nat)) (hen : p.refCountEnabled = true)
    (hm : Phys.Managed p.regions f) (hmax : f ≤ Phys.MAX_PHYS_PAGE)
    (hone : shares p.regions fs (f / PAGE_SIZE) = 0) :
    Phys.decRef (lay p (f :: fs) ps) f =
      .ok (if p.rc (f / PAGE_SIZE) = 0 then .shouldFree else .inUse, lay p fs ps) := by
  have hcount : Phys.refCount (lay p (f :: fs) ps) f = .ok (some (f / PAGE_SIZE)) := by
    change Phys.refCount p f = _
    have hend : ¬ Phys.MAX_PHYS_PAGE / PAGE_SIZE < f / PAGE_SIZE :=
      Nat.not_lt.mpr (Nat.div_le_div_right hmax)
    rw [Phys.refCount, if_neg (not_not.mpr hm), if_neg (Nat.not_lt.mpr hmax), if_neg hend]
  have hrc : (lay p (f :: fs) ps).rc (f / PAGE_SIZE) = p.rc (f / PAGE_SIZE) + 1 := by
    simp only [lay]
    rw [shares_cons, hone, if_pos ⟨hm, rfl⟩]
  have hen' : (lay p (f :: fs) ps).refCountEnabled = true := hen
  have hone' : (p.rc (f / PAGE_SIZE) + 1 = 1) ↔ p.rc (f / PAGE_SIZE) = 0 := by omega
  rw [Phys.decRef, if_pos hen', hcount]
  change (if (lay p (f :: fs) ps).rc (f / PAGE_SIZE) = 0 then _ else _) = _
  rw [hrc, if_neg (Nat.succ_ne_zero _)]
  simp only [hone']
  congr 2
  simp only [lay, Phys.PhysMem.mk.injEq, true_and, and_true]
  funext n
  by_cases hn : n = f / PAGE_SIZE
  · subst hn
    rw [Function.update_self, hone]
    omega
  · rw [Function.update_of_ne hn, shares_cons, if_neg fun hx => hn hx.2.symm, Nat.add_zero]

/-- What the drop of a page's reference leaves. -/
def afterDrop (w : World) (m : Machine) (f : Nat) : Machine :=
  if Shareable w.m.phys f then m else pushFrame m f

theorem Base.afterDrop (hb : Base w m) (hi : Inv w) (hf : PAGE_SIZE ∣ f) :
    Base w (afterDrop w m f) := by
  rw [Page.afterDrop]
  by_cases hs : Shareable w.m.phys f
  · rw [if_pos hs]
    exact hb
  · rw [if_neg hs]
    exact hb.push hi hf (hi.unshareable_no_table hf hs)

theorem drop_laid (hw : Sound w) (hb : Base w m) (hc : Covers w ps) (hf : PAGE_SIZE ∣ f)
    (hone : Phys.Managed w.m.phys.regions f → shares w.m.phys.regions fs (f / PAGE_SIZE) = 0) :
    drop (laid m (f :: fs) ps) f = some (laid (afterDrop w m f) fs ps) := by
  have hi := hw.inv
  by_cases hm : Phys.Managed w.m.phys.regions f
  · have hm' : Phys.Managed m.phys.regions f := hb.regions ▸ hm
    have hdec := decRef_lay ps hb.enabled hm' (hi.bounded f hf hm)
      (hb.regions ▸ hone hm)
    have hshare : Shareable w.m.phys f ↔ m.phys.rc (f / PAGE_SIZE) ≠ 0 := by
      rw [Shareable, forall_prop_of_true hm, hb.counts]
      exact Nat.one_le_iff_ne_zero
    have hlaid : (laid m (f :: fs) ps).phys = lay m.phys (f :: fs) ps := rfl
    rw [drop, hlaid, Phys.drop, hdec]
    by_cases h0 : m.phys.rc (f / PAGE_SIZE) = 0
    · have hs : ¬ Shareable w.m.phys f := fun hx => hshare.mp hx h0
      have hn := hi.unshareable_no_table hf hs
      have hclear := hc.clear hi hf hn
      rw [if_pos h0, afterDrop, if_neg hs]
      have hpush : ({ lay m.phys fs ps with
          mem := Phys.writeLink (lay m.phys fs ps).mem f (lay m.phys fs ps).nextFree
          nextFree := some f } : Phys.PhysMem) = lay (pushFrame m f).phys fs ps := by
        simp only [lay, pushFrame, Phys.PhysMem.mk.injEq, true_and]
        exact writeLink_covered hclear _ _
      change viaTemp (laid m (f :: fs) ps) { lay m.phys fs ps with
          mem := Phys.writeLink (lay m.phys fs ps).mem f (lay m.phys fs ps).nextFree
          nextFree := some f } = _
      rw [hpush]
      refine laid_viaTemp hi hc hb.alike hw.temp fun t ht => ?_
      exact (hb.push hi hf hn).alike.words t _ _ ht (pml1Index_lt _)
    · have hs : Shareable w.m.phys f := hshare.mpr h0
      rw [if_neg h0, afterDrop, if_pos hs]
      rfl
  · have hs : Shareable w.m.phys f := fun hx => absurd hx hm
    have hsame : lay m.phys (f :: fs) ps = lay m.phys fs ps := by
      simp only [lay, Phys.PhysMem.mk.injEq, true_and, and_true]
      funext n
      rw [shares_cons, if_neg fun hx => hm (hb.regions ▸ hx.1)]
      rfl
    have hlaid : laid m (f :: fs) ps = laid m fs ps := congrArg (Machine.mk · m.cr3 m.tempPage) hsame
    rw [drop_foreign (m := laid m (f :: fs) ps) (hb.regions ▸ hm), afterDrop, if_pos hs, hlaid]

end drop

/-! The loop of `release_page`. -/

section release

variable {w : World} {m : Machine} {fs : List Nat} {ps : List (Nat × Nat)} {virt f a fl : Nat}

/-- The entry of a covered page, as the code finds it. -/
theorem laid_entry (fs : List Nat) (hi : Inv w) (hb : Base w m) (hc : Covers w ps) {x y : Nat × Nat}
    (hl : Leaf fl w x y) (hy : y ∈ ps) (hx : pml4Index x.1 < 511) (hfl : fl ≠ 0) :
    checkedPml1Entry (laid m fs ps) x.1 = some (.ok (pml1Entry x.1)) ∧
      load (laid m fs ps) (pml1Entry x.1) = some (x.2 ||| fl) := by
  have hword := laid_pageWord fs hi hc hb.alike hl hy hx
  have hne : x.2 ||| fl ≠ 0 := fun hz => hfl (Nat.or_eq_zero_iff.mp hz).2
  obtain ⟨t, hf, rfl⟩ := hl
  have hpoints : Points (pml1Entry x.1) (lastTable x.1) (pml1Index x.1) := points_pml1Entry x.1
  constructor
  · rw [checkedPml1Entry_eq (laid_self hi hc hb.alike)]
    change (pageWord (laid m fs ps).mem m.cr3 x.1).map _ = _
    rw [hword, Option.map_some, if_neg hne]
  · rw [laid_load hi hc hb.alike hpoints (way_lastTable hx), hf, Option.map_some,
      covered_mem hc.once hy]

theorem Covers.tail {y : Nat × Nat} (hc : Covers w (y :: ps)) : Covers w ps :=
  ⟨fun b hb => hc.slots b (List.mem_cons_of_mem _ hb), (List.nodup_cons.mp hc.once).2,
    fun b hb => hc.blank b (List.mem_cons_of_mem _ hb),
    fun x hx => hc.filled x (List.mem_cons_of_mem _ hx)⟩

/-- An entry with a frame is taken off. -/
theorem unmap_laid (hw : Sound w) (hb : Base w m) (hc : Covers w ((a, f ||| fl) :: ps))
    (hl : Leaf fl w (virt, f) (a, f ||| fl)) (hv : pml4Index virt < 511) (hfl : fl ≠ 0)
    (hlt : fl < PAGE_SIZE) (hf : PAGE_SIZE ∣ f) (h0 : f ≠ 0)
    (hone : Phys.Managed w.m.phys.regions f → shares w.m.phys.regions fs (f / PAGE_SIZE) = 0) :
    tables.unmap (laid m (f :: fs) ((a, f ||| fl) :: ps)) virt =
      some (laid (afterDrop w m f) fs ps) := by
  have hi := hw.inv
  obtain ⟨hchecked, hload⟩ := laid_entry (f :: fs) hi hb hc hl List.mem_cons_self hv hfl
  have hframe : frame (f ||| fl) = f := by rw [frame_or f hlt, frame_aligned hf]
  have hraw : rawPhys (f ||| fl) = some f := by rw [rawPhys, hframe, if_pos h0]
  have hb' := hb.afterDrop hi hf
  obtain ⟨t, hfind, heq⟩ := hl
  obtain ⟨rfl, -⟩ := Prod.mk.inj heq
  have hpoints : Points (pml1Entry virt) (lastTable virt) (pml1Index virt) := points_pml1Entry virt
  have hplace := hi.last hv hfind
  have hbase : (afterDrop w m f).mem (slot t (pml1Index virt)) = 0 := by
    rw [hb'.alike.words t _ _ hplace.1 hplace.2.2]
    exact hc.blank _ List.mem_cons_self
  have hout : slot t (pml1Index virt) ∉ ps.map Prod.fst := (List.nodup_cons.mp hc.once).1
  have hclear := @covered_uncons ps (afterDrop w m f).mem _ hout (f ||| fl)
  rw [hbase] at hclear
  change (unmap _ virt).bind expect = _
  rw [unmap, hchecked]
  simp only [Option.bind_some, hload, hraw, Phys.fromRaw]
  rw [drop_laid hw hb hc hf hone, Option.bind_some,
    laid_store hi hc hb'.alike hpoints (way_lastTable hv), hfind]
  simp only [Option.map_some, hclear]
  rfl

/-- An entry without a frame is not found. -/
theorem unmap_zero (hi : Inv w) (hb : Base w m) (hc : Covers w ps) {y : Nat × Nat}
    (hl : Leaf fl w (virt, 0) y) (hy : y ∈ ps) (hv : pml4Index virt < 511) (hfl : fl ≠ 0)
    (hlt : fl < PAGE_SIZE) : tables.unmap (laid m fs ps) virt = none := by
  obtain ⟨hchecked, hload⟩ := laid_entry fs hi hb hc hl hy hv hfl
  have hraw : rawPhys (0 ||| fl) = none := by
    have hframe : frame (0 ||| fl) = 0 := by
      rw [frame_or 0 hlt]
      rfl
    rw [rawPhys, hframe]
    rfl
  change (unmap _ virt).bind expect = _
  rw [unmap, hchecked]
  simp only [Option.bind_some, hload, hraw]
  rfl

/-- All references are given back; the frames without an owner are put on the free list. -/
theorem release_laid {xs ys : List (Nat × Nat)} (hw : Sound w) (hb : Base w m) (hc : Covers w ys)
    (hl : List.Forall₂ (Leaf fl w) xs ys) (hxs : ∀ x ∈ xs, pml4Index x.1 < 511 ∧ PAGE_SIZE ∣ x.2)
    (hnd : (xs.map Prod.snd).Nodup) (hfl : fl ≠ 0) (hlt : fl < PAGE_SIZE) :
    run tables.unmap (laid m (xs.map Prod.snd) ys) (xs.map Prod.fst) =
      if 0 ∈ xs.map Prod.snd then none else some ((xs.map Prod.snd).foldl (afterDrop w) m) := by
  induction hl generalizing m with
  | nil => rfl
  | @cons x y xs ys hxy hrest ih =>
    obtain ⟨hv, hf⟩ := hxs x List.mem_cons_self
    obtain ⟨hnew, hnd⟩ := List.nodup_cons.mp hnd
    rw [List.map_cons, List.map_cons, run_cons, List.foldl_cons]
    by_cases h0 : x.2 = 0
    · have hxy' : Leaf fl w (x.1, 0) y := h0 ▸ hxy
      rw [unmap_zero hw.inv hb hc hxy' List.mem_cons_self hv hfl hlt, Option.bind_none,
        if_pos (h0 ▸ List.mem_cons_self)]
    · have hone : Phys.Managed w.m.phys.regions x.2 →
          shares w.m.phys.regions (xs.map Prod.snd) (x.2 / PAGE_SIZE) = 0 := by
        intro _
        apply List.countP_eq_zero.mpr
        intro g hg hx
        obtain ⟨-, hpage⟩ := of_decide_eq_true hx
        obtain ⟨z, hz, rfl⟩ := List.mem_map.mp hg
        have hsame := Phys.page_number_inj (hxs z (List.mem_cons_of_mem _ hz)).2 hf hpage
        exact hnew (hsame ▸ hg)
      obtain ⟨a, e⟩ := y
      obtain ⟨t, hfind, heq⟩ := hxy
      have he : e = x.2 ||| fl := (Prod.mk.inj heq).2
      subst he
      rw [unmap_laid hw hb hc ⟨t, hfind, heq⟩ hv hfl hlt hf h0 hone, Option.bind_some,
        ih (hb.afterDrop hw.inv hf) hc.tail (fun z hz => hxs z (List.mem_cons_of_mem _ hz)) hnd]
      have hzero : (0 ∈ x.2 :: xs.map Prod.snd) ↔ 0 ∈ xs.map Prod.snd := by
        rw [List.mem_cons, or_iff_right (Ne.symm h0)]
      simp only [hzero]

end release

/-! The free list. -/

section chains

variable {m : Machine} {us : List Nat}

/-- Frames that are not pushed keep their contents. -/
theorem pushes_outside {u : Nat} (hu : PAGE_SIZE ∣ u) (hus : ∀ g ∈ us, PAGE_SIZE ∣ g ∧ g ≠ u) {a : Nat}
    (h₁ : u ≤ a) (h₂ : a < u + PAGE_SIZE) : (us.foldl pushFrame m).mem a = m.mem a := by
  induction us generalizing m with
  | nil => rfl
  | cons g us ih =>
    obtain ⟨hg, hne⟩ := hus g List.mem_cons_self
    rw [List.foldl_cons, ih fun x hx => hus x (List.mem_cons_of_mem _ hx)]
    exact Phys.writeLink_outside _ _ _ _ (Phys.frame_apart hg hu (Ne.symm hne) h₁ h₂)

/-- The frames come off the list in the reverse order, and then what was on it before. -/
theorem pushes_chain (hus : ∀ g ∈ us, PAGE_SIZE ∣ g) (hnd : us.Nodup) {free : List Nat}
    (h : FreeList (us.foldl pushFrame m).phys free) :
    ∃ rest, free = us.reverse ++ rest ∧
      Linked.Chain (Phys.readLink (us.foldl pushFrame m).mem) m.phys.nextFree rest := by
  induction us generalizing m with
  | nil => exact ⟨free, rfl, h⟩
  | cons u us ih =>
    obtain ⟨hnew, hnd⟩ := List.nodup_cons.mp hnd
    obtain ⟨rest, rfl, hchain⟩ := ih (fun g hg => hus g (List.mem_cons_of_mem _ hg)) hnd h
    have hu := hus u List.mem_cons_self
    have hlink : Phys.readLink (us.foldl pushFrame (pushFrame m u)).mem u = m.phys.nextFree := by
      rw [Phys.readLink_congr fun a h₁ h₂ => pushes_outside hu (fun g hg =>
        ⟨hus g (List.mem_cons_of_mem _ hg), fun he => hnew (he ▸ hg)⟩) h₁ h₂]
      exact Phys.readLink_writeLink _ _ _
    cases rest with
    | nil => cases hchain
    | cons g rest =>
      obtain ⟨hhead, hchain⟩ := hchain
      cases hhead
      rw [hlink] at hchain
      refine ⟨rest, ?_, hchain⟩
      rw [List.reverse_cons, List.append_assoc]
      rfl

theorem pushes_head (hne : us ≠ []) :
    (us.foldl pushFrame m).phys.nextFree = us.reverse.head? := by
  induction us using List.reverseRecOn with
  | nil => exact absurd rfl hne
  | append_singleton us u _ =>
    rw [List.foldl_append, List.reverse_append]
    rfl

/-- A list that frames were pushed on is not the list from before, even if they were on it. -/
theorem pushes_differ (hus : ∀ g ∈ us, PAGE_SIZE ∣ g) (hnd : us.Nodup) (hne : us ≠ [])
    {free : List Nat} (h : FreeList m.phys free) :
    ¬ FreeList (us.foldl pushFrame m).phys free := by
  intro h'
  obtain ⟨rest, hfree, hchain⟩ := pushes_chain hus hnd h'
  -- the head is the last frame that was pushed, before and after
  have hhead : m.phys.nextFree = (us.foldl pushFrame m).phys.nextFree := by
    rw [pushes_head hne]
    obtain ⟨u, rev, hrev⟩ := List.exists_cons_of_ne_nil (mt List.reverse_eq_nil_iff.mp hne)
    rw [hrev] at hfree ⊢
    rw [hfree] at h
    exact h.1
  rw [hhead] at hchain
  have hlen := congrArg List.length (hfree.symm.trans (Linked.chain_unique h' hchain))
  rw [List.length_append, List.length_reverse] at hlen
  exact hne (List.length_eq_zero_iff.mp (by omega))

end chains

/-! Both calls. -/

theorem drops_eq (w : World) (m : Machine) (fs : List Nat) :
    fs.foldl (afterDrop w) m = (fs.filter fun f => ¬ Shareable w.m.phys f).foldl pushFrame m := by
  induction fs generalizing m with
  | nil => rfl
  | cons f fs ih =>
    rw [List.foldl_cons, ih, afterDrop]
    by_cases hs : Shareable w.m.phys f
    · simp [hs]
    · simp [hs]

/-- The allocator has the same free list, bump pointers and counts. -/
structure SameFrames (p q : Phys.PhysMem) : Prop where
  free : ∀ free, FreeList p free → FreeList q free
  bump : q.bumpAlloc = p.bumpAlloc
  counts : q.rc = p.rc

theorem physPages_nodup {v p n : Nat} (hend : v + n * PAGE_SIZE ≤ MAX_USER_ADDR) :
    (PageCalls.physPages p n).Nodup := by
  refine List.Nodup.map_on (fun i hi j hj h => ?_) List.nodup_range
  have hi := List.mem_range.mp hi
  have hj := List.mem_range.mp hj
  simp only [PAGE_SIZE, MAX_USER_ADDR, WORD] at h hend
  omega

theorem physPages_aligned {p n : Nat} (hp : PAGE_SIZE ∣ p) :
    ∀ f ∈ PageCalls.physPages p n, PAGE_SIZE ∣ f := by
  intro f hf
  obtain ⟨i, -, rfl⟩ := List.mem_map.mp hf
  have hdvd : PAGE_SIZE ∣ p + i * PAGE_SIZE := Nat.dvd_add hp (Nat.dvd_mul_left _ _)
  exact (Nat.dvd_mod_iff (by decide)).mpr hdvd

/-- The pages that a call has mapped pass the check of a release. -/
theorem laid_valid {w : World} {fl : Nat} (fs : List Nat) {xs ys : List (Nat × Nat)} (hi : Inv w)
    (hc : Covers w ys) (hl : List.Forall₂ (Leaf fl w) xs ys)
    (hxs : ∀ x ∈ xs, pml4Index x.1 < 511 ∧ PAGE_SIZE ∣ x.2) (hfl : fl ≠ 0)
    (hlt : fl < PAGE_SIZE) (hall : fl ≤ PageFlags.all) :
    validateMap (tables.entry (laid w.m fs ys)) 0 (xs.map Prod.fst) = some (.ok ()) := by
  apply validateMap_all
  intro v hv
  obtain ⟨x, hx, rfl⟩ := List.mem_map.mp hv
  obtain ⟨y, hy, hxy⟩ := Lists.forall₂_mem hl hx
  obtain ⟨hidx, hf⟩ := hxs x hx
  obtain ⟨hchecked, hload⟩ := laid_entry fs hi hi.base hc hxy hy hidx hfl
  refine ⟨x.2 ||| fl, ?_, fun hz => hfl (Nat.or_eq_zero_iff.mp hz).2, ?_⟩
  · change pageEntry _ x.1 = _
    rw [pageEntry, entry, hchecked]
    simp only [Option.bind_some, hload, Option.map_some]
  · rw [flags_of_entry hf hlt]
    exact hall

end Crabos.Page
