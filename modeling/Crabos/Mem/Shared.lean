import Crabos.Mem.PageAlloc

/-!
# Physical memory at any address

`MapPhysicalMemory` takes any address that user code gives it. A frame of the
allocator that has an owner gets one more, and it may be a page table; memory
outside of the regions is not counted. An address that is not the begin of a
page puts its low bits into the flags of the entry.
-/
namespace Crabos.Page

open Crabos.Words Crabos.Radix Crabos.Interface Crabos.User Crabos.Run

variable {w w' : World} {f virt fl : Nat}

/-! Addresses within a page. -/

theorem frame_or_offset (f : Nat) : frame f ||| f % PAGE_SIZE = f := by
  have hlt : f % PAGE_SIZE < 2 ^ 12 := Nat.mod_lt _ (by decide)
  have hor := Nat.two_pow_add_eq_or_of_lt hlt (f / PAGE_SIZE)
  have hsum := Nat.div_add_mod f PAGE_SIZE
  rw [frame, Nat.mul_comm]
  exact hor.symm.trans hsum

theorem frame_le (f : Nat) : frame f ≤ f := Nat.div_mul_le_self _ _

theorem frame_div (f : Nat) : frame f / PAGE_SIZE = f / PAGE_SIZE :=
  Nat.mul_div_cancel _ (by decide)

theorem Inv.managed_frame (hi : Inv w) (f : Nat) :
    Phys.Managed w.m.phys.regions (frame f) ↔ Phys.Managed w.m.phys.regions f := by
  constructor
  · intro h
    by_contra hf
    exact hi.frame_foreign hf h
  · rintro ⟨r, hr, hb, he⟩
    refine ⟨r, hr, ?_, Nat.lt_of_le_of_lt (frame_le f) he⟩
    have hdiv := Nat.div_le_div_right (c := PAGE_SIZE) hb
    rw [← Nat.div_mul_cancel (hi.aligned r hr).1]
    exact Nat.mul_le_mul_right _ hdiv

/-- The count of a page is found from any address in it. -/
theorem Inv.new_frame (hi : Inv w) {g : Nat} {q : Phys.PhysMem}
    (h : Phys.new w.m.phys f = .ok (g, q)) :
    g = f ∧ Phys.new w.m.phys (frame f) = .ok (frame f, q) := by
  have hg := (Phys.new_rc h).1
  subst hg
  refine ⟨rfl, ?_⟩
  simp only [Phys.new, Phys.incRef, Phys.incRefForInit, Phys.refCount, hi.managed_frame,
    frame_div] at h ⊢
  by_cases hen : w.m.phys.refCountEnabled = true
  · simp only [if_pos hen] at h ⊢
    by_cases hm : ¬ Phys.Managed w.m.phys.regions g
    · simp only [if_pos hm] at h ⊢
      cases h
      rfl
    · simp only [if_neg hm] at h ⊢
      by_cases hmax : Phys.MAX_PHYS_PAGE < g
      · simp only [if_pos hmax] at h
        cases h
      · have hmax' : ¬ Phys.MAX_PHYS_PAGE < frame g := fun hx =>
          hmax (Nat.lt_of_lt_of_le hx (frame_le g))
        simp only [if_neg hmax, if_neg hmax'] at h ⊢
        by_cases hend : Phys.MAX_PHYS_PAGE / PAGE_SIZE < g / PAGE_SIZE
        · simp only [if_pos hend] at h
          cases h
        · simp only [if_neg hend] at h ⊢
          cases h
          rfl
  · simp only [if_neg hen] at h ⊢
    cases h
    rfl

/-- What `map` stores is all that it does with the address, if it succeeds. -/
theorem map_congr {m m' : Machine} {g fl' : Nat} (h : map m f virt fl = some (.ok (), m'))
    (he : f ||| fl = g ||| fl') : map m g virt fl' = some (.ok (), m') := by
  obtain ⟨⟨ok, m₁⟩, ht, h⟩ := Option.bind_eq_some_iff.mp h
  rw [map, ht, Option.bind_some]
  cases ok with
  | false =>
    obtain ⟨m₂, -, hx⟩ := Option.map_eq_some_iff.mp h
    cases hx
  | true =>
    obtain ⟨e, hload, h⟩ := Option.bind_eq_some_iff.mp h
    change mapLast m₁ g virt fl' = _
    rw [mapLast, hload, Option.bind_some]
    by_cases h0 : e ≠ 0
    · rw [if_pos h0] at h
      obtain ⟨m₂, -, hx⟩ := Option.map_eq_some_iff.mp h
      cases hx
    · rw [if_neg h0] at h ⊢
      rw [Phys.intoRaw, ← he]
      exact h

/-- The low bits of an address are flags. -/
theorem Inv.mapPhys_frame (hi : Inv w) {m' : Machine} (h : mapPhys w.m f virt fl = some m') :
    mapPhys w.m (frame f) virt (f % PAGE_SIZE ||| fl) = some m' := by
  obtain ⟨⟨g, q⟩, hn, hmap⟩ := Option.bind_eq_some_iff.mp h
  obtain ⟨rfl, hn'⟩ := hi.new_frame (toOption_some hn)
  obtain ⟨x, hx, he⟩ := Option.bind_eq_some_iff.mp hmap
  rw [expect_ok he] at hx
  have hword : g ||| fl = frame g ||| (g % PAGE_SIZE ||| fl) := by
    rw [← Nat.or_assoc, frame_or_offset]
  rw [mapPhys, hn']
  change (map _ (frame g) virt _).bind expect = some m'
  rw [map_congr hx hword]
  rfl

/-! Frames with an owner. -/

/-- The frame is none of the allocator, or it has an owner. -/
def Shareable (p : Phys.PhysMem) (f : Nat) : Prop :=
  Phys.Managed p.regions f → 1 ≤ p.rc (f / PAGE_SIZE)

instance (p : Phys.PhysMem) (f : Nat) : Decidable (Shareable p f) :=
  inferInstanceAs (Decidable (_ → _))

theorem Inv.owned_of_shareable (hi : Inv w) (h : Shareable w.m.phys f)
    (hm : Phys.Managed w.m.phys.regions f) : frame f ∈ w.s.owners := by
  have hrc := hi.rc_eq ((hi.managed_frame f).mpr hm) (dvd_frame f)
  rw [frame_div] at hrc
  have hpos := h hm
  rw [hrc] at hpos
  exact List.count_pos_iff.mp hpos

/-- A caller now holds one more `Phys` for a frame. -/
def World.lend (w : World) (f : Nat) (q : Phys.PhysMem) : World :=
  { w with
    m := { w.m with phys := q }
    s := { w.s with p := q, live := f :: w.s.live } }

theorem lend_spec (hi : Inv w) {g : Nat} {q : Phys.PhysMem} (hown : f ∈ w.s.owners)
    (h : Phys.new w.m.phys f = .ok (g, q)) :
    g = f ∧ SameTables w (w.lend f q) ∧ Inv (w.lend f q) ∧ Loose (w.lend f q) f := by
  obtain ⟨free, hphys⟩ := hi.phys
  rw [← hi.same] at h
  obtain ⟨rfl, rc, rfl, hrc⟩ := Phys.new_ok hphys.enabled (hphys.frame f hown).1 h
  have hsame : SameTables w (w.lend g { w.s.p with rc := rc }) := by
    refine ⟨rfl, rfl, rfl, ?_, rfl, fun t p i _ _ => ?_⟩
    · change w.s.p.regions = w.m.phys.regions
      rw [hi.same]
    · change w.s.p.mem (slot t i) = w.m.phys.mem (slot t i)
      rw [hi.same]
  refine ⟨rfl, hsame, ?_, List.mem_cons_self, ?_⟩
  · exact hi.touch hsame rfl ⟨free, Phys.inv_clone hphys hown hrc⟩ rfl hi.ctx (fun _ hc => hc)
      (hi.held.trans (List.sublist_cons_self _ _).subperm) rfl
  · change w.ctxs.Subperm ((g :: w.s.live).erase g)
    rw [List.erase_cons_head]
    exact hi.held

/-- What a mapping of given memory comes to. -/
inductive PhysEnd (w : World) (f virt fl : Nat) : World → Prop
  | foreign {w' : World} (outside : ¬ Phys.Managed w.m.phys.regions f)
      (mapped : MapForeignEnd w f virt fl (.ok ()) w') : PhysEnd w f virt fl w'
  | shared {q : Phys.PhysMem} {w' : World} (owned : frame f ∈ w.s.owners)
      (same : SameTables w (w.lend (frame f) q)) (inv : Inv (w.lend (frame f) q))
      (mapped : MapEnd (w.lend (frame f) q) (frame f) virt (f % PAGE_SIZE ||| fl) (.ok ()) w') :
      PhysEnd w f virt fl w'

theorem offset_flags_lt (f : Nat) (hfl : fl < PAGE_SIZE) : f % PAGE_SIZE ||| fl < PAGE_SIZE :=
  Nat.or_lt_two_pow (n := 12) (Nat.mod_lt _ (by decide)) hfl

/-- The entry of the temporary page is as before unless it is mapped. -/
theorem MapEnd.tempFree {r : Except MapError Unit} (h : MapEnd w f virt fl r w') (hi : Inv w)
    (hv : pml4Index virt < 511) (htemp : indices virt ≠ indices w.m.tempPage)
    (ht : TempFree w.m) : TempFree w'.m := by
  cases h with
  | done ext inv last empty =>
    refine (mapTo_oneSlot inv (inv.last hv last) f fl).tempFree inv (ext.tempFree hi inv ht) ?_
    rw [ext.tempPage]
    exact not_temp htemp
  | fails ext inv dropped used =>
    exact (dropped.sameTables.steady inv rfl).temp (ext.tempFree hi inv ht)

theorem mapPhys_ends (hw : Sound w) {m' : Machine} (hv : pml4Index virt < 256) (hfl : fl < PAGE_SIZE)
    (hf : Shareable w.m.phys f) (h : PageCalls.mapPhysAs tables fl w.m (virt, f) = some m') :
    ∃ w', w'.m = m' ∧ PhysEnd w f virt fl w' ∧ Sound w' ∧ Confined w w' := by
  by_cases hm : Phys.Managed w.m.phys.regions f
  · have hown := hw.inv.owned_of_shareable hf hm
    have hframe := hw.inv.mapPhys_frame (h : mapPhys w.m f virt fl = some m')
    obtain ⟨⟨g, q⟩, hn, h⟩ := Option.bind_eq_some_iff.mp hframe
    obtain ⟨rfl, hsame, hinv, hloose⟩ := lend_spec hw.inv hown (toOption_some hn)
    obtain ⟨x, hx, he⟩ := Option.bind_eq_some_iff.mp h
    rw [expect_ok he] at hx
    have hfull := hsame.full hw.inv rfl hw.full
    have htemp := (hsame.steady hw.inv rfl).temp hw.temp
    change map (w.lend (frame f) q).m _ virt _ = some (.ok (), m') at hx
    obtain ⟨w', rfl, hend⟩ := map_spec hinv (by omega) (hfull.topReady (by omega)) hloose hx
    have hfl' := offset_flags_lt f hfl
    refine ⟨w', rfl, .shared hown hsame hinv hend, ⟨hend.inv (by omega) hloose hfl', ?_, ?_⟩, ?_⟩
    · exact hend.full hinv (by omega) hfull
    · exact hend.tempFree hinv (by omega) (hinv.user_not_temp hv) htemp
    · exact hend.confined_from hsame rfl rfl rfl hv
  · obtain ⟨w', rfl, hend, hw', -, hconf⟩ := mapForeign_ends hw hv hfl hm h
    exact ⟨w', rfl, .foreign hm hend, hw', hconf⟩

/-! Entries of pages. -/

theorem MapForeignEnd.self (h : MapForeignEnd w f virt fl (.ok ()) w') (hv : pml4Index virt < 511) :
    pageWord w'.m.mem w'.m.cr3 virt = some (f ||| fl) := by
  cases h with
  | done ext inv last empty =>
    have h1 := inv.write_oneSlot (inv.last hv last) (f ||| fl)
    have hself := h1.pageWord_self inv inv.loaded hv last rfl
    rw [write_self] at hself
    exact hself

theorem MapForeignEnd.other (h : MapForeignEnd w f virt fl (.ok ()) w') {v : Nat} (hi : Inv w)
    (hv' : pml4Index virt < 511) (hv : pml4Index v < 511) (hne : indices v ≠ indices virt) :
    pageWord w'.m.mem w'.m.cr3 v = pageWord w.m.mem w.m.cr3 v := by
  cases h with
  | done ext inv last empty =>
    have h1 := inv.write_oneSlot (inv.last hv' last) (f ||| fl)
    refine (h1.pageWord_other inv inv.loaded hv fun hx => hne (indices_inj hx.1 hx.2)).trans ?_
    rw [ext.cr3]
    exact ext.words _ _ hi.loaded hv

theorem PhysEnd.self (h : PhysEnd w f virt fl w') (hv : pml4Index virt < 511) :
    pageWord w'.m.mem w'.m.cr3 virt = some (f ||| fl) := by
  cases h with
  | foreign outside mapped => exact mapped.self hv
  | shared owned same inv mapped => rw [mapped.self hv, ← Nat.or_assoc, frame_or_offset]

theorem PhysEnd.other (h : PhysEnd w f virt fl w') {v : Nat} (hi : Inv w)
    (hv' : pml4Index virt < 511) (hv : pml4Index v < 511) (hne : indices v ≠ indices virt) :
    pageWord w'.m.mem w'.m.cr3 v = pageWord w.m.mem w.m.cr3 v := by
  cases h with
  | foreign outside mapped => exact mapped.other hi hv' hv hne
  | shared owned same inv mapped =>
    rw [mapped.same.1, mapped.other hv' (same.place ▸ hi.loaded) hv fun _ => hne]
    exact same.pageWord hi hi.loaded hv

/-- Owners stay owners. -/
theorem PhysEnd.owners (h : PhysEnd w f virt fl w') {g : Nat} (hg : g ∈ w.s.owners) :
    g ∈ w'.s.owners := by
  cases h with
  | foreign outside mapped =>
    cases mapped with
    | done ext inv last empty => exact ext.owners hg
  | @shared q w' owned same inv mapped =>
    have hg₁ : g ∈ (w.lend (frame f) q).s.owners := by
      rcases List.mem_append.mp hg with hg | hg
      · exact List.mem_append_left _ (List.mem_cons_of_mem _ hg)
      · exact List.mem_append_right _ hg
    cases mapped with
    | @done w₁ t ext inv last empty =>
      have hmem : frame f ∈ w₁.s.live := by
        rw [ext.live]
        exact List.mem_cons_self
      exact (Phys.perm_intoRaw _ hmem).mem_iff.mpr (ext.owners hg₁)

theorem PhysEnd.shareable (h : PhysEnd w f virt fl w') (hi : Inv w) (hi' : Inv w')
    (hreg : w'.m.phys.regions = w.m.phys.regions) {g : Nat} (hg : Shareable w.m.phys g) :
    Shareable w'.m.phys g := by
  intro hm
  have hown := h.owners (hi.owned_of_shareable hg (hreg ▸ hm))
  have hrc := hi'.rc_eq ((hi'.managed_frame g).mpr hm) (dvd_frame g)
  rw [frame_div] at hrc
  rw [hrc]
  exact List.count_pos_iff.mpr hown

theorem ModifyEnd.self (h : ModifyEnd w virt fl (.ok ()) w') (hi : Inv w)
    (hv : pml4Index virt < 511) :
    ∃ e, pageWord w.m.mem w.m.cr3 virt = some e ∧ e ≠ 0 ∧
      pageWord w'.m.mem w'.m.cr3 virt = some (setFlags e fl) := by
  cases h with
  | @done t e last entry some =>
    have h1 := setEntry_oneSlot hi (hi.last hv last) (setFlags e fl)
    have hself := h1.pageWord_self hi hi.loaded hv last rfl
    refine ⟨e, ?_, some, hself.trans (congrArg _ (write_self _ _ _))⟩
    rw [hi.linked.pageWord_eq hi.loaded hv, last]
    exact congrArg _ entry

theorem ModifyEnd.other (h : ModifyEnd w virt fl (.ok ()) w') {v : Nat} (hi : Inv w)
    (hv' : pml4Index virt < 511) (hv : pml4Index v < 511) (hne : indices v ≠ indices virt) :
    pageWord w'.m.mem w'.m.cr3 v = pageWord w.m.mem w.m.cr3 v := by
  cases h with
  | @done t e last entry some =>
    have h1 := setEntry_oneSlot hi (hi.last hv' last) (setFlags e fl)
    exact h1.pageWord_other hi hi.loaded hv fun hx => hne (indices_inj hx.1 hx.2)

/-- A page that gets a frame had none; one that fails to get it, and every other one, is as
before. -/
theorem AllocEnd.word {r : SysResult Unit} (h : AllocEnd w virt fl r w') (hi : Inv w) {v : Nat}
    (hv' : pml4Index virt < 511) (hv : pml4Index v < 511) :
    pageWord w'.m.mem w'.m.cr3 v = pageWord w.m.mem w.m.cr3 v ∨
      r = .ok () ∧ indices v = indices virt ∧ pageWord w.m.mem w.m.cr3 v = some 0 ∧
        ∃ f q, Handed w f q ∧ pageWord w'.m.mem w'.m.cr3 v = some (f ||| fl) := by
  cases h with
  | empty => exact .inl rfl
  | @ends f q r w' handed mapped free =>
    have hsame := handed.sameTables hi
    have hword : pageWord (w.hand f q).m.mem (w.hand f q).m.cr3 v = pageWord w.m.mem w.m.cr3 v :=
      hsame.pageWord hi hi.loaded hv
    by_cases hx : r = .ok () ∧ indices v = indices virt
    · obtain ⟨rfl, hidx⟩ := hx
      refine .inr ⟨rfl, hidx, ?_, f, q, handed, ?_⟩
      · rw [← hword, pageWord_indices hidx]
        exact mapped.free handed.inv hv'
      · rw [pageWord_indices hidx]
        exact mapped.self hv'
    · refine .inl ?_
      rw [← hword, mapped.same.1]
      exact mapped.other hv' handed.inv.loaded hv fun hr hidx => hx ⟨hr, hidx⟩

/-! Calls. -/

/-- No frame of the allocator without an owner is mapped. -/
def Shares (m : Machine) : Call → Prop
  | .mapPhysicalMemory _ p n _ => ∀ f ∈ PageCalls.physPages p n, Shareable m.phys f
  | _ => True

/-- The first page of physical memory is not mapped. -/
def SparesZero : Call → Prop
  | .mapPhysicalMemory _ p n _ => ∀ f ∈ PageCalls.physPages p n, PAGE_SIZE ≤ f
  | _ => True

/-- Every page of the user half that has an entry has a frame. -/
def Framed (m : Machine) : Prop :=
  ∀ v, pml4Index v < 256 → ∀ e, pageWord m.mem m.cr3 v = some e → e ≠ 0 → frame e ≠ 0

theorem frame_ne_zero {f : Nat} (h : PAGE_SIZE ≤ f) : frame f ≠ 0 := by
  have hpos : 0 < f / PAGE_SIZE := Nat.div_pos h (by decide)
  exact Nat.mul_ne_zero hpos.ne' (by decide)

theorem AllocEnd.framed {r : SysResult Unit} (h : AllocEnd w virt fl r w') (hi : Inv w)
    (hz : ¬ Phys.Managed w.m.phys.regions 0) (hv : pml4Index virt < 256) (hfl : fl < PAGE_SIZE)
    (hf : Framed w.m) : Framed w'.m := by
  intro v hv' e he h0
  rcases h.word hi (v := v) (by omega) (by omega) with hsame | ⟨-, -, -, f, q, handed, hself⟩
  · exact hf v hv' e (hsame ▸ he) h0
  · have heq := Option.some.inj (he.symm.trans hself)
    rw [heq, frame_or f hfl, frame_aligned handed.aligned]
    rintro rfl
    exact hz handed.managed

theorem UnmapEnd.framed (h : UnmapEnd w virt (.ok ()) w') (hi : Inv w) (hv : pml4Index virt < 256)
    (hf : Framed w.m) : Framed w'.m := by
  intro v hv' e he h0
  by_cases hidx : indices v = indices virt
  · have hself := h.self hi (by omega)
    rw [pageWord_indices hidx, hself] at he
    exact absurd (Option.some.inj he).symm h0
  · rw [h.cr3, h.other hi (by omega) hi.loaded (by omega) hidx] at he
    exact hf v hv' e he h0

theorem ModifyEnd.framed (h : ModifyEnd w virt fl (.ok ()) w') (hi : Inv w)
    (hv : pml4Index virt < 256) (hfl : fl < PAGE_SIZE) (hf : Framed w.m) : Framed w'.m := by
  intro v hv' e he h0
  by_cases hidx : indices v = indices virt
  · obtain ⟨e₀, hold, hne, hself⟩ := h.self hi (by omega)
    rw [pageWord_indices hidx, hself] at he
    rw [← Option.some.inj he, frame_setFlags _ hfl]
    exact hf virt hv e₀ hold hne
  · rw [h.other hi (by omega) (by omega) hidx] at he
    exact hf v hv' e he h0

theorem PhysEnd.framed (h : PhysEnd w f virt fl w') (hi : Inv w) (hv : pml4Index virt < 256)
    (hfl : fl < PAGE_SIZE) (hz : PAGE_SIZE ≤ f) (hf : Framed w.m) : Framed w'.m := by
  intro v hv' e he h0
  by_cases hidx : indices v = indices virt
  · rw [pageWord_indices hidx, h.self (by omega)] at he
    rw [← Option.some.inj he, frame_or f hfl]
    exact frame_ne_zero hz
  · rw [h.other hi (by omega) (by omega) hidx] at he
    exact hf v hv' e he h0

/-- What a call leaves: the words of the kernel, and the frames of all pages if it maps none
without. -/
def Keeping (c : Call) (w w' : World) : Prop :=
  Confined w w' ∧ (SparesZero c → Framed w.m → Framed w'.m)

theorem Keeping.refl (c : Call) (w : World) : Keeping c w w := ⟨.refl w, fun _ h => h⟩

theorem Keeping.trans {c : Call} {w₁ w₂ w₃ : World} (h₁ : Keeping c w₁ w₂) (h₂ : Keeping c w₂ w₃) :
    Keeping c w₁ w₃ := ⟨h₁.1.trans h₂.1, fun hz hf => h₂.2 hz (h₁.2 hz hf)⟩

theorem call_sound (hw : Sound w) (hz : ¬ Phys.Managed w.m.phys.regions 0) {c : Call}
    {r : SysResult Nat} {m' : Machine} (hc : Shares w.m c) (h : c.exec w.m = some (r, m')) :
    ∃ w', w'.m = m' ∧ Sound w' ∧ Keeping c w w' := by
  have hfail : ∀ {m''}, m'' = w.m → ∃ w', w'.m = m'' ∧ Sound w' ∧ Keeping c w w' := by
    rintro m'' rfl
    exact ⟨w, rfl, hw, .refl c w⟩
  cases c with
  | allocPage v n bits =>
    rcases PageCalls.allocPage_cases h with ⟨e, -, hm⟩ | ⟨range, fl, hn, hv, hfl, h⟩
    · exact hfail hm
    · obtain ⟨huser, -⟩ := hw.range_user hn (.inl hv)
      obtain ⟨w', hm, hw', hkeep⟩ := PageCalls.allocPages_follow (f := World.m)
        (P := fun u => Sound u ∧ ¬ Phys.Managed u.m.phys.regions 0) (Keeping.refl _)
        (fun _ _ _ => Keeping.trans)
        (fun a ha u x s' hu hs => by
          have ha' := user_index (huser a ha).1
          obtain ⟨u', hm, hend⟩ := allocMap_spec hu.1 ha' hs
          obtain ⟨hu', -, hconf⟩ := hend.sound hu.1 ha' (userPageFlags_lt hfl)
          exact ⟨u', hm, ⟨hu', hconf.regions ▸ hu.2⟩, hconf,
            fun _ => hend.framed hu.1.inv hu.2 ha' (userPageFlags_lt hfl)⟩) ⟨hw, hz⟩ h
      exact ⟨w', hm, hw'.1, hkeep⟩
  | releasePage v n =>
    rcases PageCalls.releasePage_cases h with ⟨e, -, hm⟩ | ⟨range, hn, hv, h, -⟩
    · exact hfail hm
    · obtain ⟨huser, -⟩ := hw.range_user hn (.inr hv)
      exact run_follow (f := World.m) (Keeping.refl _) (fun _ _ _ => Keeping.trans)
        (fun a ha u t hu hs => by
          have ha' := user_index (huser a ha).1
          obtain ⟨u', hm, hend, hu', -, hconf⟩ := unmap_ends hu ha' hs
          exact ⟨u', hm, hu', hconf, fun _ => hend.framed hu.inv ha'⟩) hw h
  | modifyPage v n bits =>
    rcases PageCalls.modifyPage_cases h with ⟨e, -, hm⟩ | ⟨range, fl, hn, hv, hfl, h, -⟩
    · exact hfail hm
    · obtain ⟨huser, -⟩ := hw.range_user hn (.inr hv)
      exact run_follow (f := World.m) (Keeping.refl _) (fun _ _ _ => Keeping.trans)
        (fun a ha u t hu hs => by
          have ha' := user_index (huser a ha).1
          have hfl' := userPageFlags_lt hfl
          obtain ⟨u', hm, hend, hu', -, hconf⟩ := modify_ends hu ha' hfl' hs
          exact ⟨u', hm, hu', hconf, fun _ => hend.framed hu.inv ha' hfl'⟩) hw h
  | mapPhysicalMemory v p n bits =>
    rcases PageCalls.mapPhysicalMemory_cases h with ⟨e, -, hm⟩ | ⟨range, fl, hn, hv, hfl, h, -⟩
    · exact hfail hm
    · obtain ⟨huser, -⟩ := hw.range_user hn (.inl hv)
      obtain ⟨w', hm, hw', hkeep⟩ := run_follow (f := World.m)
        (P := fun u => Sound u ∧ ∀ f ∈ PageCalls.physPages p n, Shareable u.m.phys f)
        (Keeping.refl (.mapPhysicalMemory v p n bits)) (fun _ _ _ => Keeping.trans)
        (fun a ha u t hu hs => by
          obtain ⟨hv', hp'⟩ := List.of_mem_zip ha
          have ha' := user_index (huser a.1 hv').1
          have hfl' := userPageFlags_lt hfl
          obtain ⟨u', hm, hend, hu', hconf⟩ := mapPhys_ends hu.1 ha' hfl' (hu.2 a.2 hp') hs
          refine ⟨u', hm, ⟨hu', fun f hf => ?_⟩, hconf, fun hz => ?_⟩
          · exact hend.shareable hu.1.inv hu'.inv hconf.regions (hu.2 f hf)
          · exact hend.framed hu.1.inv ha' hfl' (hz a.2 hp')) ⟨hw, hc⟩ h
      exact ⟨w', hm, hw'.1, hkeep⟩

/-! Runs in which such memory is mapped. -/

/-- As `Ready`, but pages may map tables. -/
structure Poised (k : Kernel) (w : World) : Prop where
  holds : Holds k w
  temp : TempFree w.m
  plain : Plain k w
  nonzero : ¬ Phys.Managed w.m.phys.regions 0

theorem Ready.poised {k : Kernel} (h : Ready k w) : Poised k w :=
  ⟨h.holds, h.temp, h.plain, h.nonzero⟩

theorem Poised.sound {k : Kernel} (h : Poised k w) : Sound w :=
  ⟨h.holds.inv, h.holds.full, h.temp⟩

theorem Poised.call {k : Kernel} (h : Poised k w) {c : Call} {r : SysResult Nat} {m' : Machine}
    (hc : Shares k.m c) (hx : c.exec k.m = some (r, m')) :
    ∃ w', Poised { k with m := m' } w' ∧ Keeping c w w' := by
  rw [← h.holds.m] at hc hx
  obtain ⟨w', rfl, hw', hkeep⟩ := call_sound h.sound h.nonzero hc hx
  have hconf := hkeep.1
  refine ⟨w', ⟨⟨rfl, hconf.ctxs.trans h.holds.ctxs, hw'.inv, hw'.full, ?_⟩, hw'.temp,
    fun f hf => hconf.plain f (h.holds.loose hf).mem (h.plain f hf), ?_⟩, hkeep⟩
  · rw [hconf.live]
    exact h.holds.owned
  · rw [hconf.regions]
    exact h.nonzero

/-- The kernel leaves the temporary page to the allocator, and no frame without an owner is
mapped. User code stores nothing in the meantime. -/
def Tame (k : Kernel) : Event → Prop
  | .op o => Spares k o
  | .call c => Shares k.m c
  | .store _ _ => False

theorem kernelStep_poised {k k' : Kernel} {e : Event} (h : Poised k w) (ht : Tame k e)
    (hs : kernelStep k e = some k') : ∃ w', Poised k' w' := by
  cases e with
  | op o =>
    obtain ⟨w', hw', hst⟩ := step_holds h.holds hs
    obtain ⟨hst, hp⟩ := hst ht h.plain
    exact ⟨w', hw', hst.temp h.temp, hp, hst.regions ▸ h.nonzero⟩
  | call c =>
    obtain ⟨⟨r, m'⟩, hc, hk⟩ := Option.map_eq_some_iff.mp hs
    cases hk
    obtain ⟨w', hw', -⟩ := h.call ht hc
    exact ⟨w', hw'⟩
  | store virt value => exact absurd ht id

/-- A state of the kernel after a start, a run with stores by user code in which only device
memory is mapped, and a run in which any memory with an owner is. -/
def Reachable (k : Kernel) : Prop :=
  ∃ (w : World) (frames : List Nat) (m : Machine) (evs evs' : List Event) (k₁ : Kernel),
    Booted w frames ∧ initKernelPml4Entries w.m = some m ∧
    Along kernelStep Allowed ⟨m, [], frames⟩ evs ∧ run kernelStep ⟨m, [], frames⟩ evs = some k₁ ∧
    Along kernelStep Tame k₁ evs' ∧ run kernelStep k₁ evs' = some k

theorem Reachable.poised {k : Kernel} (h : Reachable k) : ∃ w, Poised k w := by
  obtain ⟨w, frames, m, evs, evs', k₁, hb, hinit, hallowed, hrun, htame, hrun'⟩ := h
  obtain ⟨w₁, hw₁⟩ := hb.run hinit hallowed hrun
  refine invariant_along (I := fun k => ∃ w, Poised k w) ?_ ⟨w₁, hw₁.poised⟩ htame hrun'
  rintro k e k' ⟨w, hw⟩ ht hs
  exact kernelStep_poised hw ht hs

/-- The kernel right after its start. -/
theorem bootReachable : Reachable ⟨bootWorld.m, [], []⟩ :=
  ⟨bootWorld, [], bootWorld.m, [], [], ⟨bootWorld.m, [], []⟩, bootBooted,
    initKernelPml4Entries_full bootInv bootFull, trivial, rfl, trivial, rfl⟩

end Crabos.Page
