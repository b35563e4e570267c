import Crabos.Mem.PageMap

/-!
# The outcomes of `map`, `unmap` and `modify`

For each of the functions, the worlds that it can end in. A frame that a
caller gives to `map` is one of its `Phys` values or memory outside of the
regions, which is not counted.
-/
namespace Crabos.Page

open Crabos.Words Crabos.Radix Crabos.Interface Crabos.User Crabos.Run

variable {w w' : World}

/-! `map` -/

/-- What `map` does with a `Phys`: it makes tables first. Then it sets the
entry, or it drops the `Phys`. -/
inductive MapEnd (w : World) (f virt fl : Nat) : Except MapError Unit → World → Prop
  | done {w₁ : World} {t : Nat} (ext : Ext (half (lastTable virt)) w w₁) (inv : Inv w₁)
      (last : find next w₁.m.mem w₁.m.cr3 (lastTable virt) = some t)
      (empty : w₁.m.mem (slot t (pml1Index virt)) = 0) :
      MapEnd w f virt fl (.ok ()) (w₁.mapTo t (pml1Index virt) f fl)
  | fails {w₁ : World} {p : Phys.PhysMem} {e : MapError}
      (ext : Ext (half (lastTable virt)) w w₁) (inv : Inv w₁) (dropped : Dropped w₁ w₁.s f p)
      (used : e = .alreadyMapped → ∃ t, find next w₁.m.mem w₁.m.cr3 (lastTable virt) = some t ∧
        w₁.m.mem (slot t (pml1Index virt)) ≠ 0) :
      MapEnd w f virt fl (.error e) (w₁.dropped f p)

theorem mapFails_spec {w₁ : World} (hi : Inv w₁) {f : Nat} {e : MapError}
    {r : Except MapError Unit} {m' : Machine} (hf : Loose w₁ f)
    (h : mapFails w₁.m f e = some (r, m')) :
    ∃ p, r = .error e ∧ m' = (w₁.dropped f p).m ∧ Dropped w₁ w₁.s f p := by
  obtain ⟨m₁, hd, hx⟩ := Option.map_eq_some_iff.mp h
  cases hx
  obtain ⟨p, rfl, hdr⟩ := drop_spec hi (hf.dropping hi) hd
  exact ⟨p, rfl, rfl, hdr⟩

theorem map_spec (hi : Inv w) {f virt fl : Nat} {r : Except MapError Unit} {m' : Machine}
    (hv : pml4Index virt < 511) (htop : TopReady w virt) (hf : Loose w f)
    (h : map w.m f virt fl = some (r, m')) : ∃ w', w'.m = m' ∧ MapEnd w f virt fl r w' := by
  obtain ⟨⟨ok, m₁⟩, h₁, h⟩ := Option.bind_eq_some_iff.mp h
  obtain ⟨w₁, rfl, hi₁, hext, hok⟩ := ensureTables_spec hi hv htop h₁
  cases ok with
  | false =>
    obtain ⟨p, rfl, rfl, hdr⟩ := mapFails_spec hi₁ (hext.loose hf) h
    exact ⟨_, rfl, .fails hext hi₁ hdr (fun he => by cases he)⟩
  | true =>
    obtain ⟨t, ht⟩ := hok rfl
    simp only [mapLast, hi₁.load_last ht, Option.bind_some] at h
    split at h
    · rename_i h0
      obtain ⟨p, rfl, rfl, hdr⟩ := mapFails_spec hi₁ (hext.loose hf) h
      exact ⟨_, rfl, .fails hext hi₁ hdr (fun _ => ⟨t, ht, h0⟩)⟩
    · rename_i h0
      rw [hi₁.store_last ht] at h
      cases h
      exact ⟨w₁.mapTo t (pml1Index virt) f fl, rfl, .done hext hi₁ ht (by simpa using h0)⟩

theorem MapEnd.inv {f virt fl : Nat} {r : Except MapError Unit} (h : MapEnd w f virt fl r w')
    (hv : pml4Index virt < 511) (hf : Loose w f) (hfl : fl < PAGE_SIZE) : Inv w' := by
  cases h with
  | done ext inv last empty => exact inv.mapTo (inv.last hv last) empty (ext.loose hf) hfl
  | fails ext inv dropped used => exact dropped.inv inv (ext.loose hf)

/-- `map` of memory that is not counted. -/
inductive MapForeignEnd (w : World) (f virt fl : Nat) : Except MapError Unit → World → Prop
  | done {w₁ : World} {t : Nat} (ext : Ext (half (lastTable virt)) w w₁) (inv : Inv w₁)
      (last : find next w₁.m.mem w₁.m.cr3 (lastTable virt) = some t)
      (empty : w₁.m.mem (slot t (pml1Index virt)) = 0) :
      MapForeignEnd w f virt fl (.ok ()) (w₁.write (slot t (pml1Index virt)) (f ||| fl))
  | fails {w₁ : World} (ext : Ext (half (lastTable virt)) w w₁) (inv : Inv w₁) (e : MapError) :
      MapForeignEnd w f virt fl (.error e) w₁

theorem mapForeign_spec (hi : Inv w) {f virt fl : Nat} {r : Except MapError Unit} {m' : Machine}
    (hv : pml4Index virt < 511) (htop : TopReady w virt)
    (hf : ¬ Phys.Managed w.m.phys.regions f) (h : map w.m f virt fl = some (r, m')) :
    ∃ w', w'.m = m' ∧ MapForeignEnd w f virt fl r w' := by
  obtain ⟨⟨ok, m₁⟩, h₁, h⟩ := Option.bind_eq_some_iff.mp h
  obtain ⟨w₁, rfl, hi₁, hext, hok⟩ := ensureTables_spec hi hv htop h₁
  have hdrop : drop w₁.m f = some w₁.m := drop_foreign (hext.regions ▸ hf)
  cases ok with
  | false =>
    simp only [mapFails, hdrop] at h
    cases h
    exact ⟨w₁, rfl, .fails hext hi₁ _⟩
  | true =>
    obtain ⟨t, ht⟩ := hok rfl
    simp only [mapLast, hi₁.load_last ht, Option.bind_some] at h
    split at h
    · simp only [mapFails, hdrop] at h
      cases h
      exact ⟨w₁, rfl, .fails hext hi₁ _⟩
    · rename_i h0
      rw [hi₁.store_last ht] at h
      cases h
      exact ⟨_, rfl, .done hext hi₁ ht (by simpa using h0)⟩

/-- The page around an address lies in the same region. -/
theorem Inv.frame_foreign (hi : Inv w) {f : Nat} (hf : ¬ Phys.Managed w.m.phys.regions f) :
    ¬ Phys.Managed w.m.phys.regions (frame f) := by
  rintro ⟨r, hr, hb, he⟩
  have hend := Phys.page_le (dvd_frame f) (hi.aligned r hr).2 he
  refine hf ⟨r, hr, ?_, ?_⟩
  · exact hb.trans (Nat.div_mul_le_self _ _)
  · refine Nat.lt_of_lt_of_le ?_ hend
    have h := Nat.lt_div_mul_add (a := f) (b := PAGE_SIZE) (by decide)
    exact h

theorem MapForeignEnd.inv {f virt fl : Nat} {r : Except MapError Unit}
    (h : MapForeignEnd w f virt fl r w') (hi : Inv w) (hv : pml4Index virt < 511)
    (hf : ¬ Phys.Managed w.m.phys.regions f) (hfl : fl < PAGE_SIZE) : Inv w' := by
  cases h with
  | done ext inv last empty =>
    refine inv.mapForeign (inv.last hv last) (inv.zero_not_mapped empty) ?_
    rintro ⟨-, hm⟩
    rw [frame_or f hfl, ext.regions] at hm
    exact hi.frame_foreign hf hm
  | fails ext inv e => exact inv

/-! `unmap` -/

/-- The owner in an entry has become a `Phys` again. -/
def World.fromRaw (w : World) (f : Nat) : Phys.State :=
  { w.s with live := f :: w.s.live, raws := w.s.raws.erase f }

/-- The frame of an entry is given up, then the entry is cleared. -/
def World.clear (w : World) (t i f : Nat) (p : Phys.PhysMem) : World :=
  { w with
    m := { w.m with phys := { p with mem := Function.update p.mem (slot t i) 0 } }
    s := { (w.fromRaw f).dropped f p with
      p := { p with mem := Function.update p.mem (slot t i) 0 } }
    slots := w.slots.erase (t, i) }

inductive UnmapEnd (w : World) (virt : Nat) : Except NotMapped Unit → World → Prop
  | fails {e : Nat} (word : pageWord w.m.mem w.m.cr3 virt = some e) (none : frame e = 0) :
      UnmapEnd w virt (.error ⟨⟩) w
  | done {t f : Nat} {p : Phys.PhysMem}
      (last : find next w.m.mem w.m.cr3 (lastTable virt) = some t)
      (entry : frame (w.m.mem (slot t (pml1Index virt))) = f) (some : f ≠ 0)
      (managed : Phys.Managed w.m.phys.regions f) (dropped : Dropped w (w.fromRaw f) f p) :
      UnmapEnd w virt (.ok ()) (w.clear t (pml1Index virt) f p)
  | foreign {t : Nat} (last : find next w.m.mem w.m.cr3 (lastTable virt) = some t)
      (some : frame (w.m.mem (slot t (pml1Index virt))) ≠ 0)
      (outside : ¬ Phys.Managed w.m.phys.regions (frame (w.m.mem (slot t (pml1Index virt))))) :
      UnmapEnd w virt (.ok ()) (w.write (slot t (pml1Index virt)) 0)

section owners

variable {t i : Nat} {p : List Nat}

/-- Without one slot, the others still have their owners. -/
theorem Inv.backed_erase (hi : Inv w) (hm : (t, i) ∈ w.slots) :
    (w.m.cr3 :: (w.tables ++ leafFrames w.m.mem (w.slots.erase (t, i)))).Subperm
      (w.s.raws.erase (frame (w.m.mem (slot t i)))) := by
  have h := ((raws_erase hm).subperm_right.mp hi.backed).erase (frame (w.m.mem (slot t i)))
  rwa [List.erase_cons_head] at h

theorem Inv.leaf_mem_raws (hi : Inv w) (hm : (t, i) ∈ w.slots) :
    frame (w.m.mem (slot t i)) ∈ w.s.raws :=
  hi.backed.subset ((raws_erase hm).mem_iff.mpr List.mem_cons_self)

theorem Inv.dropping_leaf (hi : Inv w) (hm : (t, i) ∈ w.slots) :
    Dropping w (w.fromRaw (frame (w.m.mem (slot t i)))) (frame (w.m.mem (slot t i))) where
  same := hi.same
  phys := by
    obtain ⟨free, hphys⟩ := hi.phys
    exact ⟨free, Phys.inv_fromRaw hphys (hi.leaf_mem_raws hm)⟩
  live := List.mem_cons_self
  owned u q hu := by
    simp only [World.fromRaw, List.erase_cons_head]
    by_cases h0 : q = []
    · subst h0
      rcases List.mem_cons.mp (hi.root u hu) with rfl | hc
      · exact List.mem_append_right _ ((hi.backed_erase hm).subset List.mem_cons_self)
      · exact List.mem_append_left _ (hi.held.subset hc)
    · refine List.mem_append_right _ ((hi.backed_erase hm).subset (List.mem_cons_of_mem _ ?_))
      exact List.mem_append_left _ (hi.table u q hu h0)

theorem clear_oneSlot (hi : Inv w) (hl : w.place t = some p ∧ p.length = 3 ∧ i < 512) {f : Nat}
    {q : Phys.PhysMem} (hd : Dropped w (w.fromRaw f) f q) : OneSlot w (w.clear t i f q) t i p where
  last := hl
  place := rfl
  ctxs := rfl
  tables := rfl
  regions := hd.regions
  cr3 := rfl
  tempPage := rfl
  mem u q' j hu hj hne := by
    have h : slot u j ≠ slot t i := fun he => hne (hi.slot_inj hu hl.1 hj hl.2.2 he)
    exact (Function.update_of_ne h _ _).trans (hd.mem u q' j hu hj)

theorem Inv.clear (hi : Inv w) (hl : w.place t = some p ∧ p.length = 3 ∧ i < 512)
    (hm : (t, i) ∈ w.slots) {q : Phys.PhysMem}
    (hd : Dropped w (w.fromRaw (frame (w.m.mem (slot t i)))) (frame (w.m.mem (slot t i))) q) :
    Inv (w.clear t i (frame (w.m.mem (slot t i))) q) := by
  have h1 := clear_oneSlot hi hl hd
  have hself : (w.clear t i (frame (w.m.mem (slot t i))) q).m.mem (slot t i) = 0 :=
    Function.update_self _ _ _
  refine hi.setLast h1 rfl ?_ ?_ (hi.once.erase _) (fun _ _ hne => mem_erase_other hne) ?_ ?_
  · obtain ⟨free, hphys⟩ := hd.phys
    have hown := (hi.dropping_leaf hm).owned t p hl.1
    exact ⟨free, Phys.inv_write hphys hown (slot_in_frame hl.2.2).1 (slot_in_frame hl.2.2).2 0⟩
  · change w.ctxs.Subperm ((_ :: w.s.live).erase _)
    rw [List.erase_cons_head]
    exact hi.held
  · rw [hself]
    exact ⟨fun hx => absurd hx hi.erase_not_mem, fun hx => absurd rfl hx.1⟩
  · change (w.m.cr3 :: (w.tables ++ leafFrames _ (w.slots.erase (t, i)))).Subperm
      (w.s.raws.erase _)
    rw [h1.leafFrames hi (fun x hx => List.mem_of_mem_erase hx) hi.erase_not_mem]
    exact hi.backed_erase hm

end owners

theorem Inv.unmap_eq (hi : Inv w) {virt t : Nat}
    (hf : find next w.m.mem w.m.cr3 (lastTable virt) = some t)
    (h0 : frame (w.m.mem (slot t (pml1Index virt))) ≠ 0)
    (hword : pageWord w.m.mem w.m.cr3 virt = some (w.m.mem (slot t (pml1Index virt)))) :
    unmap w.m virt = (drop w.m (frame (w.m.mem (slot t (pml1Index virt))))).bind fun m =>
      (store m (pml1Entry virt) 0).map fun m => (.ok (), m) := by
  have hne : w.m.mem (slot t (pml1Index virt)) ≠ 0 := by
    intro hz
    rw [hz] at h0
    exact h0 rfl
  rw [unmap, hi.checked_eq, hword]
  simp only [Option.map_some, Option.bind_some, if_neg hne, hi.load_last hf, rawPhys, if_pos h0,
    Phys.fromRaw]

/-- The last entry of a page is still there when no table has changed. -/
theorem Inv.store_kept (hi : Inv w) {virt t : Nat} {p : Phys.PhysMem}
    (hsame : ∀ u q i, w.place u = some q → i < 512 → p.mem (slot u i) = w.m.mem (slot u i))
    (hv : pml4Index virt < 511) (hf : find next w.m.mem w.m.cr3 (lastTable virt) = some t) (v : Nat) :
    store { w.m with phys := p } (pml1Entry virt) v =
      some { w.m with phys := { p with mem := Function.update p.mem (slot t (pml1Index virt)) v } } := by
  have hself : next (p.mem (slot w.m.cr3 511)) = some w.m.cr3 := by
    rw [hsame w.m.cr3 [] 511 hi.loaded (by decide)]
    exact hi.linked.self _ hi.loaded
  have hfind : find next p.mem w.m.cr3 (lastTable virt) = some t := by
    rw [← hf]
    exact hi.linked.placed.find_congr (fun u q i hu hwi => hsame u q i hu (way_snoc hwi).2)
      hi.loaded (way_lastTable hv)
  rw [store_points (m := { w.m with phys := p }) hself (points_pml1Entry virt)]
  change (find next p.mem w.m.cr3 (lastTable virt)).map _ = _
  rw [hfind]
  rfl

theorem unmap_spec (hi : Inv w) {virt : Nat} {r : Except NotMapped Unit} {m' : Machine}
    (hv : pml4Index virt < 511) (h : unmap w.m virt = some (r, m')) :
    ∃ w', w'.m = m' ∧ UnmapEnd w virt r w' := by
  have hword := hi.linked.pageWord_eq hi.loaded hv
  by_cases h0 : frame ((find next w.m.mem w.m.cr3 (lastTable virt)).elim 0
      fun t => w.m.mem (slot t (pml1Index virt))) = 0
  · refine ⟨w, ?_⟩
    have hfail : unmap w.m virt = some (.error ⟨⟩, w.m) := by
      rw [unmap, hi.checked_eq, hword]
      simp only [Option.map_some, Option.bind_some]
      split
      · rename_i he
        split at he
        · cases he
          rfl
        · cases he
      · rename_i ent he
        split at he
        · cases he
        · rename_i hne
          cases he
          obtain ⟨t, hf, hm⟩ := find_of_pageWord hword hne
          rw [hi.load_last hf, hm]
          simp only [Option.bind_some, rawPhys]
          rw [if_neg (fun hx => hx h0)]
    rw [hfail] at h
    cases h
    exact ⟨rfl, .fails hword h0⟩
  · cases hf : find next w.m.mem w.m.cr3 (lastTable virt) with
    | none =>
      rw [hf] at h0
      exact absurd (by simp [frame]) h0
    | some t =>
      rw [hf] at h0 hword
      simp only [Option.elim_some] at h0 hword
      have hl := hi.last hv hf
      rw [hi.unmap_eq hf h0 hword] at h
      obtain ⟨m₁, hd, h⟩ := Option.bind_eq_some_iff.mp h
      by_cases hm : Phys.Managed w.m.phys.regions (frame (w.m.mem (slot t (pml1Index virt))))
      · have hin : (t, pml1Index virt) ∈ w.slots :=
          (hi.mapped t _).mpr ⟨⟨_, hl⟩, fun hz => h0 (by rw [hz]; rfl), hm⟩
        obtain ⟨p, rfl, hdr⟩ := drop_spec hi (hi.dropping_leaf hin) hd
        rw [hi.store_kept hdr.mem hv hf] at h
        cases h
        exact ⟨_, rfl, .done hf rfl h0 hm hdr⟩
      · rw [drop_foreign hm] at hd
        cases hd
        rw [hi.store_last hf] at h
        cases h
        exact ⟨_, rfl, .foreign hf h0 hm⟩

theorem UnmapEnd.inv {virt : Nat} {r : Except NotMapped Unit} (h : UnmapEnd w virt r w')
    (hi : Inv w) (hv : pml4Index virt < 511) : Inv w' := by
  cases h with
  | fails word none => exact hi
  | done last entry some managed dropped =>
    subst entry
    have hin := (hi.mapped _ _).mpr ⟨⟨_, hi.last hv last⟩, fun hz => some (by rw [hz]; rfl), managed⟩
    exact hi.clear (hi.last hv last) hin dropped
  | foreign last some outside =>
    refine hi.mapForeign (hi.last hv last) ?_ (fun hx => hx.1 rfl)
    exact fun hx => outside ((hi.mapped _ _).mp hx).2.2

/-! `modify` -/

inductive ModifyEnd (w : World) (virt fl : Nat) : Except NotMapped Unit → World → Prop
  | fails (word : pageWord w.m.mem w.m.cr3 virt = some 0) : ModifyEnd w virt fl (.error ⟨⟩) w
  | done {t e : Nat} (last : find next w.m.mem w.m.cr3 (lastTable virt) = some t)
      (entry : w.m.mem (slot t (pml1Index virt)) = e) (some : e ≠ 0) :
      ModifyEnd w virt fl (.ok ()) (w.setEntry t (pml1Index virt) (setFlags e fl))

theorem modify_spec (hi : Inv w) {virt fl : Nat} {r : Except NotMapped Unit} {m' : Machine}
    (h : modify w.m virt fl = some (r, m')) : ∃ w', w'.m = m' ∧ ModifyEnd w virt fl r w' := by
  rw [modify, hi.checked_eq] at h
  obtain ⟨x, hx, h⟩ := Option.bind_eq_some_iff.mp h
  obtain ⟨e, hword, rfl⟩ := Option.map_eq_some_iff.mp hx
  by_cases h0 : e = 0
  · subst h0
    rw [if_pos rfl] at h
    cases h
    exact ⟨w, rfl, .fails hword⟩
  · rw [if_neg h0] at h
    obtain ⟨t, hf, hm⟩ := find_of_pageWord hword h0
    simp only [hi.load_last hf, Option.bind_some, hi.store_last hf] at h
    cases h
    refine ⟨w.setEntry t (pml1Index virt) (setFlags e fl), ?_, .done hf hm h0⟩
    rw [hm]
    rfl

theorem frame_setFlags (e : Nat) {fl : Nat} (hfl : fl < PAGE_SIZE) :
    frame (setFlags e fl) = frame e := by
  rw [setFlags, frame_or _ hfl, frame_aligned (dvd_frame e)]

theorem ModifyEnd.inv {virt fl : Nat} {r : Except NotMapped Unit} (h : ModifyEnd w virt fl r w')
    (hi : Inv w) (hv : pml4Index virt < 511) (hfl : fl < PAGE_SIZE) : Inv w' := by
  cases h with
  | fails word => exact hi
  | done last entry some =>
    subst entry
    exact hi.setEntry (hi.last hv last) some (frame_setFlags _ hfl)

end Crabos.Page
