import Crabos.Mem.PageShare

/-!
# Page calls and the kernel half

The four calls on the page tables, and the runs in which they are made. A
range that passes its checks has only pages of the user half: one that wraps
around contains the temporary page, which is not mapped, and the last page of
the window, which is.
-/
namespace Crabos.Page

open Crabos.Words Crabos.Radix Crabos.Interface Crabos.User Crabos.Run

variable {w w' : World}

/-- A world between two calls. -/
structure Fit (w : World) : Prop where
  inv : Inv w
  full : Full w
  temp : TempFree w.m
  clean : Clean w

/-- What the calls need: frames that pages map may well be tables. -/
structure Sound (w : World) : Prop where
  inv : Inv w
  full : Full w
  temp : TempFree w.m

theorem Fit.sound (hw : Fit w) : Sound w := ⟨hw.inv, hw.full, hw.temp⟩

/-- What a call leaves as it was: the words of the kernel, among others. -/
structure Confined (w w' : World) : Prop where
  cr3 : w'.m.cr3 = w.m.cr3
  ctxs : w'.ctxs = w.ctxs
  live : w'.s.live = w.s.live
  tempPage : w'.m.tempPage = w.m.tempPage
  regions : w'.m.phys.regions = w.m.phys.regions
  places : ∀ t p, w.place t = some p → w'.place t = some p
  plain : ∀ f ∈ w.s.live, w.place f = none → w'.place f = none
  zone : ∀ a, Zone w.place a → w'.m.mem a = w.m.mem a

theorem Confined.refl (w : World) : Confined w w :=
  ⟨rfl, rfl, rfl, rfl, rfl, fun _ _ h => h, fun _ _ h => h, fun _ _ => rfl⟩

theorem Confined.trans {w₁ w₂ w₃ : World} (h₁ : Confined w₁ w₂) (h₂ : Confined w₂ w₃) :
    Confined w₁ w₃ where
  cr3 := h₂.cr3.trans h₁.cr3
  ctxs := h₂.ctxs.trans h₁.ctxs
  live := h₂.live.trans h₁.live
  tempPage := h₂.tempPage.trans h₁.tempPage
  regions := h₂.regions.trans h₁.regions
  places t p ht := h₂.places t p (h₁.places t p ht)
  plain f hf hn := h₂.plain f (h₁.live ▸ hf) (h₁.plain f hf hn)
  zone a ha := by
    have ha' : Zone w₂.place a := by
      obtain ⟨t, p, i, hp, hz⟩ := ha
      exact ⟨t, p, i, h₁.places t p hp, hz⟩
    rw [h₂.zone a ha', h₁.zone a ha]

/-- All entries on the way to a page of the kernel are as before, in every PML4. -/
theorem Confined.entries (h : Confined w w') (hi : Inv w) {r virt : Nat}
    (hr : w.place r = some []) (h₁ : 256 ≤ pml4Index virt) (h₂ : pml4Index virt < 511) :
    entries next w'.m.mem r (indices virt) = entries next w.m.mem r (indices virt) := by
  refine (hi.linked.placed.way_congr ?_ hr (show [] ++ indices virt = indices virt from rfl)
    (way_lastTable h₂)).2
  intro t p i js ht hfull
  have hmem : ∀ j ∈ p ++ i :: js, j < 512 := by
    rw [hfull]
    exact indices_lt virt
  refine h.zone _ ⟨t, p, i, ht, hmem i (by simp), ?_, rfl⟩
  -- every prefix of the indices begins with the slot of the PML4
  have hhead : (p ++ i :: js).head? = some (pml4Index virt) := by
    rw [hfull]
    rfl
  cases p with
  | nil =>
    cases hhead
    exact if_neg (by omega)
  | cons j p =>
    cases hhead
    exact if_neg (by omega)

/-! Pages of the user half. -/

theorem half_user {virt : Nat} (h : pml4Index virt < 256) : half (lastTable virt) = .user := if_pos h

theorem Inv.user_not_temp (hi : Inv w) {virt : Nat} (h : pml4Index virt < 256) :
    indices virt ≠ indices w.m.tempPage := by
  intro he
  have h4 := (List.cons.inj he).1
  have hup := hi.upper.1
  omega

theorem OneSlot.confined {t i : Nat} {p : List Nat} (h : OneSlot w w' t i p) (hp : half p = .user)
    (hlive : w'.s.live = w.s.live) : Confined w w' where
  cr3 := h.cr3
  ctxs := h.ctxs
  live := hlive
  tempPage := h.tempPage
  regions := h.regions
  places u q hu := by
    rw [h.place]
    exact hu
  plain f _ hn := by
    rw [h.place]
    exact hn
  zone _ ha := h.zone hp ha

theorem Ext.confined (h : Ext .user w w') : Confined w w' where
  cr3 := h.cr3
  ctxs := h.ctxs
  live := h.live
  tempPage := h.tempPage
  regions := h.regions
  places := h.places
  plain f hf hn := (h.frames f (List.mem_append_left _ hf) hn).1
  zone := h.zone rfl

section pages

variable {f virt fl : Nat}

theorem UnmapEnd.confined {r : Except NotMapped Unit} (h : UnmapEnd w virt r w') (hi : Inv w)
    (hv : pml4Index virt < 256) : Confined w w' := by
  have hlive := h.held.2
  cases h with
  | fails word none => exact .refl w
  | done last entry some managed dropped =>
    exact (clear_oneSlot hi (hi.last (by omega) last) dropped).confined (half_user hv) hlive
  | foreign last some outside =>
    exact (hi.write_oneSlot (hi.last (by omega) last) 0).confined (half_user hv) hlive

theorem ModifyEnd.confined {r : Except NotMapped Unit} (h : ModifyEnd w virt fl r w') (hi : Inv w)
    (hv : pml4Index virt < 256) : Confined w w' := by
  cases h with
  | fails word => exact .refl w
  | done last entry some =>
    exact (setEntry_oneSlot hi (hi.last (by omega) last) _).confined (half_user hv) rfl

theorem MapForeignEnd.confined {r : Except MapError Unit} (h : MapForeignEnd w f virt fl r w')
    (hv : pml4Index virt < 256) : Confined w w' := by
  cases h with
  | done ext inv last empty =>
    rw [half_user hv] at ext
    exact ext.confined.trans
      ((inv.write_oneSlot (inv.last (by omega) last) (f ||| fl)).confined (half_user hv) rfl)
  | fails ext inv e =>
    rw [half_user hv] at ext
    exact ext.confined

/-- What `map` leaves as it was, whosever the frame is. -/
structure Retains (w w' : World) : Prop where
  places : ∀ t p, w.place t = some p → w'.place t = some p
  plain : ∀ g ∈ w.s.owners, w.place g = none → w'.place g = none
  zone : ∀ a, Zone w.place a → w'.m.mem a = w.m.mem a

theorem MapEnd.retains {r : Except MapError Unit} (h : MapEnd w f virt fl r w')
    (hv : pml4Index virt < 256) : Retains w w' := by
  cases h with
  | done ext inv last empty =>
    rw [half_user hv] at ext
    have h1 := mapTo_oneSlot inv (inv.last (by omega) last) f fl
    refine ⟨ext.places, fun g hg hn => (ext.frames g hg hn).1, fun a ha => ?_⟩
    have ha₁ := ext.zone rfl a ha
    obtain ⟨t, p, i, ht, hz⟩ := ha
    exact (h1.zone (half_user hv) ⟨t, p, i, ext.places t p ht, hz⟩).trans ha₁
  | fails ext inv dropped used =>
    rw [half_user hv] at ext
    refine ⟨ext.places, fun g hg hn => (ext.frames g hg hn).1, fun a ha => ?_⟩
    have ha₁ := ext.zone rfl a ha
    obtain ⟨t, p, i, ht, hlt, hk, rfl⟩ := ha
    exact (dropped.mem t p i (ext.places t p ht) hlt).trans ha₁

/-- `map` of a `Phys` that the caller has just made: `w₁` is the world with it. -/
theorem MapEnd.confined_from {w₁ : World} {r : Except MapError Unit}
    (h : MapEnd w₁ f virt fl r w') (hsame : SameTables w w₁)
    (hcr3 : w₁.m.cr3 = w.m.cr3) (hctxs : w₁.ctxs = w.ctxs) (hlive : w₁.s.live = f :: w.s.live)
    (hv : pml4Index virt < 256) : Confined w w' := by
  obtain ⟨hcr3', htemp, hreg⟩ := h.same
  obtain ⟨hctxs', hlive'⟩ := h.held
  have hkeep := h.retains hv
  refine ⟨hcr3'.trans hcr3, hctxs'.trans hctxs, ?_, htemp.trans hsame.tempPage,
    hreg.trans hsame.regions, ?_, ?_, ?_⟩
  · rw [hlive', hlive, List.erase_cons_head]
  · exact fun t p ht => hkeep.places t p (hsame.place ▸ ht)
  · intro g hg hn
    have hown : g ∈ w₁.s.live := hlive ▸ List.mem_cons_of_mem _ hg
    exact hkeep.plain g (List.mem_append_left _ hown) (hsame.place ▸ hn)
  · intro a ha
    have ha₁ := hkeep.zone a (hsame.place ▸ ha)
    obtain ⟨t, p, i, ht, hlt, -, rfl⟩ := ha
    exact ha₁.trans (hsame.mem t p i ht hlt)

/-- `map` of a frame that was just handed out. -/
theorem MapEnd.confined {q : Phys.PhysMem} {r : Except MapError Unit}
    (h : MapEnd (w.hand f q) f virt fl r w') (hi : Inv w) (hh : Handed w f q)
    (hv : pml4Index virt < 256) : Confined w w' :=
  h.confined_from (hh.sameTables hi) rfl rfl rfl hv

/-! The functions that the calls use. -/

theorem Steady.sound (hst : Steady w w') (hw : Sound w) (hi : Inv w') (hf : Full w') : Sound w' :=
  ⟨hi, hf, hst.temp hw.temp⟩

theorem Steady.fit (hst : Steady w w') (hw : Fit w) (hw' : Sound w') : Fit w' :=
  ⟨hw'.inv, hw'.full, hw'.temp, hst.clean hw.clean⟩

theorem Handed.sound {q : Phys.PhysMem} (hh : Handed w f q) (hw : Sound w) : Sound (w.hand f q) :=
  ((hh.sameTables hw.inv).steady hw.inv rfl).sound hw hh.inv
    ((hh.sameTables hw.inv).full hw.inv rfl hw.full)

/-- What an allocation of a page comes to. -/
inductive AllocEnd (w : World) (virt fl : Nat) : SysResult Unit → World → Prop
  | empty : AllocEnd w virt fl (.error .memoryExhausted) w
  | ends {f : Nat} {q : Phys.PhysMem} {r : Except MapError Unit} {w' : World} (handed : Handed w f q)
      (mapped : MapEnd (w.hand f q) f virt fl r w') (free : r ≠ .error .alreadyMapped) :
      AllocEnd w virt fl (r.mapError fun _ => .memoryExhausted) w'

theorem allocMap_spec (hw : Sound w) {r : SysResult Unit} {m' : Machine} (hv : pml4Index virt < 256)
    (h : allocMap w.m virt fl = some (r, m')) : ∃ w', w'.m = m' ∧ AllocEnd w virt fl r w' := by
  obtain ⟨⟨x, m₁⟩, ha, h⟩ := Option.bind_eq_some_iff.mp h
  rcases alloc_spec hw.inv ha with ⟨rfl, rfl⟩ | ⟨f, q, rfl, rfl, hh⟩
  · cases h
    exact ⟨w, rfl, .empty⟩
  · have hw₁ := hh.sound hw
    obtain ⟨⟨y, m₂⟩, hm, h⟩ := Option.bind_eq_some_iff.mp h
    obtain ⟨w', rfl, hend⟩ := map_spec hw₁.inv (by omega) (hw₁.full.topReady (by omega))
      (hw.inv.hand_loose f q) hm
    cases y with
    | ok u =>
      cases h
      exact ⟨w', rfl, .ends hh hend (fun hx => by cases hx)⟩
    | error e =>
      cases e with
      | alreadyMapped => cases h
      | cannotAllocatePageTable =>
        cases h
        exact ⟨w', rfl, .ends hh hend (fun hx => by cases hx)⟩

theorem AllocEnd.sound {r : SysResult Unit} (h : AllocEnd w virt fl r w') (hw : Sound w)
    (hv : pml4Index virt < 256) (hfl : fl < PAGE_SIZE) :
    Sound w' ∧ Steady w w' ∧ Confined w w' := by
  cases h with
  | empty => exact ⟨hw, (SameTables.refl w).steady hw.inv rfl, .refl w⟩
  | @ends f q r w' handed mapped free =>
    have hw₁ := handed.sound hw
    have hl := hw.inv.hand_loose f q
    have hplain : (w.hand f q).place f = none := hw.inv.unowned_no_table handed.unowned
    have hst₁ := (handed.sameTables hw.inv).steady hw.inv rfl
    have hst₂ := mapped.steady hw₁.inv (by omega) (hw₁.inv.user_not_temp hv) hl hplain hfl
    have hw' := hst₂.sound hw₁ (mapped.inv (by omega) hl hfl)
      (mapped.full hw₁.inv (by omega) hw₁.full)
    refine ⟨hw', hst₁.trans hst₂ fun g hg hn => ?_, mapped.confined hw.inv handed hv⟩
    have hown : g ∈ (w.hand f q).s.owners := by
      rcases List.mem_append.mp hg with hg | hg
      · exact List.mem_append_left _ (List.mem_cons_of_mem _ hg)
      · exact List.mem_append_right _ hg
    exact hst₂.plain g hown hn

theorem AllocEnd.mapped {r : SysResult Unit} (h : AllocEnd w virt fl r w') (hok : r = .ok ()) :
    ∃ f q, Handed w f q ∧ MapEnd (w.hand f q) f virt fl (.ok ()) w' := by
  cases h with
  | empty => cases hok
  | @ends f q r w' handed mapped free =>
    cases r with
    | error e => cases hok
    | ok u => exact ⟨f, q, handed, mapped⟩

theorem allocMap_step (hw : Fit w) {r : SysResult Unit} {m' : Machine} (hv : pml4Index virt < 256)
    (hfl : fl < PAGE_SIZE) (h : allocMap w.m virt fl = some (r, m')) :
    ∃ w', w'.m = m' ∧ Fit w' ∧ Confined w w' ∧
      (r = .ok () → ∃ f q, Handed w f q ∧ MapEnd (w.hand f q) f virt fl (.ok ()) w') := by
  obtain ⟨w', rfl, hend⟩ := allocMap_spec hw.sound hv h
  obtain ⟨hw', hst, hconf⟩ := hend.sound hw.sound hv hfl
  exact ⟨w', rfl, hst.fit hw hw', hconf, hend.mapped⟩

theorem expect_ok {ε : Type} {x : Except ε Unit × Machine} {m' : Machine} (h : expect x = some m') :
    x = (.ok (), m') := by
  obtain ⟨r, m⟩ := x
  cases r with
  | error e => cases h
  | ok u =>
    cases h
    rfl

theorem unmap_ends (hw : Sound w) {m' : Machine} (hv : pml4Index virt < 256)
    (h : tables.unmap w.m virt = some m') :
    ∃ w', w'.m = m' ∧ UnmapEnd w virt (.ok ()) w' ∧ Sound w' ∧ Steady w w' ∧ Confined w w' := by
  obtain ⟨x, hx, he⟩ := Option.bind_eq_some_iff.mp h
  rw [expect_ok he] at hx
  obtain ⟨w', rfl, hend⟩ := unmap_spec hw.inv (by omega) hx
  have hst := hend.steady hw.inv (by omega) (hw.inv.user_not_temp hv)
  exact ⟨w', rfl, hend,
    hst.sound hw (hend.inv hw.inv (by omega)) (hend.full hw.inv (by omega) hw.full), hst,
    hend.confined hw.inv hv⟩

theorem unmap_step (hw : Fit w) {m' : Machine} (hv : pml4Index virt < 256)
    (h : tables.unmap w.m virt = some m') :
    ∃ w', w'.m = m' ∧ Fit w' ∧ Confined w w' := by
  obtain ⟨w', rfl, -, hw', hst, hconf⟩ := unmap_ends hw.sound hv h
  exact ⟨w', rfl, hst.fit hw hw', hconf⟩

theorem modify_ends (hw : Sound w) {m' : Machine} (hv : pml4Index virt < 256) (hfl : fl < PAGE_SIZE)
    (h : PageCalls.modifyAs tables fl w.m virt = some m') :
    ∃ w', w'.m = m' ∧ ModifyEnd w virt fl (.ok ()) w' ∧ Sound w' ∧ Steady w w' ∧ Confined w w' := by
  obtain ⟨x, hx, he⟩ := Option.bind_eq_some_iff.mp h
  rw [expect_ok he] at hx
  obtain ⟨w', rfl, hend⟩ := modify_spec hw.inv hx
  have hst := hend.steady hw.inv (by omega) (hw.inv.user_not_temp hv) hfl
  have hfull : Full w' := by
    cases hend with
    | done last entry some =>
      exact (setEntry_oneSlot hw.inv (hw.inv.last (by omega) last) _).full hw.inv hw.full
  exact ⟨w', rfl, hend, hst.sound hw (hend.inv hw.inv (by omega) hfl) hfull, hst,
    hend.confined hw.inv hv⟩

theorem modify_step (hw : Fit w) {m' : Machine} (hv : pml4Index virt < 256) (hfl : fl < PAGE_SIZE)
    (h : PageCalls.modifyAs tables fl w.m virt = some m') :
    ∃ w', w'.m = m' ∧ Fit w' ∧ Confined w w' := by
  obtain ⟨w', rfl, -, hw', hst, hconf⟩ := modify_ends hw.sound hv hfl h
  exact ⟨w', rfl, hst.fit hw hw', hconf⟩

theorem mapForeign_ends (hw : Sound w) {m' : Machine} (hv : pml4Index virt < 256)
    (hfl : fl < PAGE_SIZE) (hf : ¬ Phys.Managed w.m.phys.regions f)
    (h : PageCalls.mapPhysAs tables fl w.m (virt, f) = some m') :
    ∃ w', w'.m = m' ∧ MapForeignEnd w f virt fl (.ok ()) w' ∧ Sound w' ∧ Steady w w' ∧
      Confined w w' := by
  obtain ⟨⟨g, p⟩, hn, h⟩ := Option.bind_eq_some_iff.mp h
  have hn := toOption_some hn
  rw [Phys.new_foreign hf] at hn
  cases hn
  obtain ⟨x, hx, he⟩ := Option.bind_eq_some_iff.mp h
  rw [expect_ok he] at hx
  change map w.m f virt fl = some (.ok (), m') at hx
  obtain ⟨w', rfl, hend⟩ := mapForeign_spec hw.inv (by omega) (hw.full.topReady (by omega)) hf hx
  have hst := hend.steady hw.inv (by omega) (hw.inv.user_not_temp hv)
  exact ⟨w', rfl, hend, hst.sound hw (hend.inv hw.inv (by omega) hf hfl)
    (hend.full hw.inv (by omega) hw.full), hst, hend.confined hv⟩

theorem mapPhys_step (hw : Fit w) {m' : Machine} (hv : pml4Index virt < 256) (hfl : fl < PAGE_SIZE)
    (hf : ¬ Phys.Managed w.m.phys.regions f)
    (h : PageCalls.mapPhysAs tables fl w.m (virt, f) = some m') :
    ∃ w', w'.m = m' ∧ Fit w' ∧ Confined w w' := by
  obtain ⟨w', rfl, -, hw', hst, hconf⟩ := mapForeign_ends hw.sound hv hfl hf h
  exact ⟨w', rfl, hst.fit hw hw', hconf⟩

end pages

/-! Ranges. -/

/-- The last page of the window is the PML4. -/
theorem Inv.window_mapped (hi : Inv w) :
    ∃ e, pageEntry w.m 0xfffffffffffff000 = some e ∧ e ≠ 0 := by
  have hself := hi.linked.self _ hi.loaded
  refine ⟨w.m.mem (slot w.m.cr3 511), ?_, (next_some hself).1⟩
  have hidx : lastTable 0xfffffffffffff000 = [511, 511, 511] := by decide
  have hlast : pml1Index 0xfffffffffffff000 = 511 := by decide
  rw [hi.pageEntry_eq, pageWord, hidx, hlast]
  simp only [lookup, if_neg (next_some hself).1, hself, Option.bind_some]

/-- The canonical address of the temporary page. -/
def tempAddr (m : Machine) : Nat := 0xffff000000000000 + m.tempPage / 2 ^ 12 % 2 ^ 36 * 2 ^ 12

theorem tempAddr_indices (m : Machine) : indices (tempAddr m) = indices m.tempPage := by
  simp only [indices, pml4Index, pml3Index, pml2Index, pml1Index, tempAddr, List.cons.injEq, and_true]
  omega

theorem Inv.tempAddr_upper (hi : Inv w) :
    PAGE_SIZE ∣ tempAddr w.m ∧ MAX_USER_ADDR ≤ tempAddr w.m ∧ tempAddr w.m < WORD := by
  have hup := hi.upper.1
  simp only [pml4Index] at hup
  simp only [tempAddr, PAGE_SIZE, MAX_USER_ADDR, WORD]
  omega

theorem Sound.temp_unmapped (hw : Sound w) : pageEntry w.m (tempAddr w.m) = some 0 := by
  obtain ⟨t, hf, h0⟩ := hw.temp
  rw [hw.inv.pageEntry_eq, pageWord_indices (tempAddr_indices w.m),
    hw.inv.linked.pageWord_eq hw.inv.loaded hw.inv.upper.2, hf]
  exact congrArg some h0

theorem user_index {v : Nat} (h : v < MAX_USER_ADDR) : pml4Index v < 256 := by
  simp only [pml4Index, MAX_USER_ADDR] at *
  omega

/-- A range that is free or mapped lies in the user half. -/
theorem Sound.range_below (hw : Sound w) {virtualAddr pageCount : Nat} {range : PageRange}
    (hn : PageRange.new virtualAddr pageCount = .ok range)
    (hvalid : validateAvailable (tables.entry w.m) range.pages = some (.ok ()) ∨
      validateMap (tables.entry w.m) 0 range.pages = some (.ok ())) :
    range = ⟨virtualAddr, pageCount⟩ ∧ PAGE_SIZE ∣ virtualAddr ∧
      virtualAddr + pageCount * PAGE_SIZE ≤ MAX_USER_ADDR := by
  obtain ⟨rfl, ha, hb, hlen, hend | hwrap⟩ := PageRange.new_ok hn
  · exact ⟨rfl, ha, hend⟩
  · exfalso
    have hmem : ∀ {v}, PAGE_SIZE ∣ v → MAX_USER_ADDR ≤ v → v < WORD → v ∈ PageRange.pages ⟨_, _⟩ :=
      PageRange.mem_pages_of_wraps (r := ⟨virtualAddr, pageCount⟩) ha hb hwrap
    rcases hvalid with hfree | hmapped
    · obtain ⟨e, he, h0⟩ := hw.inv.window_mapped
      have hz := validateAvailable_ok hfree 0xfffffffffffff000
        (hmem (by decide) (by decide) (by decide))
      exact h0 (Option.some.inj (he.symm.trans hz))
    · obtain ⟨h₁, h₂, h₃⟩ := hw.inv.tempAddr_upper
      obtain ⟨e, he, h0, -⟩ := validateMap_ok hmapped (tempAddr w.m) (hmem h₁ h₂ h₃)
      exact h0 (Option.some.inj (he.symm.trans hw.temp_unmapped))

theorem Sound.range_user (hw : Sound w) {virtualAddr pageCount : Nat} {range : PageRange}
    (hn : PageRange.new virtualAddr pageCount = .ok range)
    (hvalid : validateAvailable (tables.entry w.m) range.pages = some (.ok ()) ∨
      validateMap (tables.entry w.m) 0 range.pages = some (.ok ())) :
    (∀ v ∈ range.pages, v < MAX_USER_ADDR ∧ PAGE_SIZE ∣ v) ∧ range.pages.Nodup := by
  obtain ⟨rfl, ha, hend⟩ := hw.range_below hn hvalid
  exact PageRange.pages_user ha hend

/-- What user code asks for is not nothing, and has a name. -/
theorem userPageFlags_known {bits fl : Nat} (h : PageCalls.userPageFlags bits = .ok fl) :
    fl ≠ 0 ∧ fl ≤ PageFlags.all := by
  rcases PageCalls.userPageFlags_ok h with ⟨-, rfl⟩ | ⟨-, rfl⟩
  · decide
  · decide

theorem userPageFlags_lt {bits fl : Nat} (h : PageCalls.userPageFlags bits = .ok fl) :
    fl < PAGE_SIZE := Nat.lt_of_le_of_lt (userPageFlags_known h).2 (by decide)

/-! Calls. -/

inductive Call where
  | allocPage (virtualAddr pageCount flags : Nat)
  | releasePage (virtualAddr pageCount : Nat)
  | modifyPage (virtualAddr pageCount flags : Nat)
  | mapPhysicalMemory (virtualAddr physicalAddr pageCount flags : Nat)
  deriving DecidableEq, Repr

def Call.exec (m : Machine) : Call → Option (SysResult Nat × Machine)
  | .allocPage v n fl => PageCalls.allocPage tables m v n fl
  | .releasePage v n => PageCalls.releasePage tables m v n
  | .modifyPage v n fl => PageCalls.modifyPage tables m v n fl
  | .mapPhysicalMemory v p n fl => PageCalls.mapPhysicalMemory tables m v p n fl

/-- Physical memory is mapped outside of the regions of the allocator only. -/
def Outside (regions : List Phys.PhysRegion) : Call → Prop
  | .mapPhysicalMemory _ p n _ => ∀ f ∈ PageCalls.physPages p n, ¬ Phys.Managed regions f
  | _ => True

theorem call_step (hw : Fit w) {c : Call} {r : SysResult Nat} {m' : Machine}
    (hout : Outside w.m.phys.regions c) (h : c.exec w.m = some (r, m')) :
    ∃ w', w'.m = m' ∧ Fit w' ∧ Confined w w' := by
  have hfail : ∀ {m''}, m'' = w.m → ∃ w', w'.m = m'' ∧ Fit w' ∧ Confined w w' := by
    rintro m'' rfl
    exact ⟨w, rfl, hw, .refl w⟩
  cases c with
  | allocPage v n bits =>
    rcases PageCalls.allocPage_cases h with ⟨e, -, hm⟩ | ⟨range, fl, hn, hv, hfl, h⟩
    · exact hfail hm
    · obtain ⟨huser, -⟩ := hw.sound.range_user hn (.inl hv)
      exact PageCalls.allocPages_follow (f := World.m) Confined.refl
        (fun _ _ _ => Confined.trans)
        (fun a ha w x s' hx hs => by
          obtain ⟨w', hm, hfit, hconf, -⟩ := allocMap_step hx (user_index (huser a ha).1)
            (userPageFlags_lt hfl) hs
          exact ⟨w', hm, hfit, hconf⟩) hw h
  | releasePage v n =>
    rcases PageCalls.releasePage_cases h with ⟨e, -, hm⟩ | ⟨range, hn, hv, h, -⟩
    · exact hfail hm
    · obtain ⟨huser, -⟩ := hw.sound.range_user hn (.inr hv)
      exact run_follow (f := World.m) Confined.refl (fun _ _ _ => Confined.trans)
        (fun a ha w t hx hs => unmap_step hx (user_index (huser a ha).1) hs) hw h
  | modifyPage v n bits =>
    rcases PageCalls.modifyPage_cases h with ⟨e, -, hm⟩ | ⟨range, fl, hn, hv, hfl, h, -⟩
    · exact hfail hm
    · obtain ⟨huser, -⟩ := hw.sound.range_user hn (.inr hv)
      exact run_follow (f := World.m) Confined.refl (fun _ _ _ => Confined.trans)
        (fun a ha w t hx hs => modify_step hx (user_index (huser a ha).1)
          (userPageFlags_lt hfl) hs) hw h
  | mapPhysicalMemory v p n bits =>
    rcases PageCalls.mapPhysicalMemory_cases h with ⟨e, -, hm⟩ | ⟨range, fl, hn, hv, hfl, h, -⟩
    · exact hfail hm
    · obtain ⟨huser, -⟩ := hw.sound.range_user hn (.inl hv)
      obtain ⟨w', hm, hfit, hconf⟩ := run_follow (f := World.m)
        (P := fun u => Fit u ∧ u.m.phys.regions = w.m.phys.regions) Confined.refl
        (fun _ _ _ => Confined.trans)
        (fun a ha u t hx hs => by
          obtain ⟨hv', hp'⟩ := List.of_mem_zip ha
          obtain ⟨w', hm, hfit, hconf⟩ := mapPhys_step hx.1 (user_index (huser a.1 hv').1)
            (userPageFlags_lt hfl) (hx.2 ▸ hout a.2 hp') hs
          exact ⟨w', hm, ⟨hfit, hconf.regions.trans hx.2⟩, hconf⟩) ⟨hw, rfl⟩ h
      exact ⟨w', hm, hfit.1, hconf⟩

/-! Runs of the kernel and of user code. -/

/-- A store by user code to one of its pages, in a frame of the allocator. -/
def userStore (m : Machine) (virt value : Nat) : Option Machine :=
  (pageWord m.mem m.cr3 virt).bind fun e =>
    if pml4Index virt < 256 ∧ e % 8 = PageFlags.PRESENT ||| PageFlags.WRITE ||| PageFlags.USER ∧
      Phys.Managed m.phys.regions (frame e) then store m virt value
    else none

theorem userStore_spec (hw : Fit w) {virt value : Nat} {m' : Machine}
    (h : userStore w.m virt value = some m') :
    ∃ a, m' = (w.write a value).m ∧ SameTables w (w.write a value) ∧ Inv (w.write a value) := by
  have hi := hw.inv
  obtain ⟨e, he, h⟩ := Option.bind_eq_some_iff.mp h
  split at h
  · rename_i hc
    obtain ⟨hv, hfl, hm⟩ := hc
    change e % 8 = 7 at hfl
    have h0 : e ≠ 0 := by
      rintro rfl
      cases hfl
    obtain ⟨t, hf, ht⟩ := find_of_pageWord he h0
    have hl := hi.last (by omega) hf
    have hin : (t, pml1Index virt) ∈ w.slots := (hi.mapped t _).mpr ⟨⟨_, hl⟩, ht ▸ ⟨h0, hm⟩⟩
    have hplain : w.place (frame e) = none := ht ▸ hw.clean t _ hin
    have hown : frame e ∈ w.s.owners := ht ▸ hi.leaf_owned hin
    have hnext : next e = some (frame e) := by
      have hodd : e % 2 = 1 := by omega
      exact if_pos hodd
    have hwalk : walk w.m.mem w.m.cr3 virt = some (frame e + virt % PAGE_SIZE) := by
      have hidx : indices virt = lastTable virt ++ [pml1Index virt] := rfl
      rw [walk, hidx, Radix.find_snoc hf (ht ▸ hnext), Option.map_some, ht]
    rw [store, hwalk] at h
    cases h
    have hlt : virt % PAGE_SIZE < PAGE_SIZE := Nat.mod_lt _ (by decide)
    have hsame : SameTables w (w.write (frame e + virt % PAGE_SIZE) value) := by
      refine ⟨rfl, rfl, rfl, rfl, rfl, fun u p i hu hlt' => Function.update_of_ne ?_ _ _⟩
      intro hx
      exact hi.slot_outside (dvd_frame e) hplain hu hlt' (by omega)
    refine ⟨_, rfl, hsame, ?_⟩
    obtain ⟨free, hphys⟩ := hi.phys
    exact hi.touch hsame (hi.write_same _ _)
      ⟨free, Phys.inv_write hphys hown (by omega) (by omega) value⟩ rfl hi.ctx (fun _ hc => hc)
      hi.held rfl
  · cases h

inductive Event where
  | op (o : Op)
  | call (c : Call)
  | store (virt value : Nat)
  deriving DecidableEq, Repr

def kernelStep (k : Kernel) : Event → Option Kernel
  | .op o => step k o
  | .call c => (c.exec k.m).map fun (_, m) => { k with m := m }
  | .store virt value => (userStore k.m virt value).map fun m => { k with m := m }

/-- The kernel leaves the temporary page to the allocator, and drivers map
device memory only. -/
def Allowed (k : Kernel) : Event → Prop
  | .op o => Spares k o
  | .call c => Outside k.m.phys.regions c
  | .store _ _ => True

structure Ready (k : Kernel) (w : World) : Prop where
  holds : Holds k w
  temp : TempFree w.m
  clean : Clean w
  plain : Plain k w
  nonzero : ¬ Phys.Managed w.m.phys.regions 0

theorem Ready.fit {k : Kernel} (h : Ready k w) : Fit w :=
  ⟨h.holds.inv, h.holds.full, h.temp, h.clean⟩

theorem Ready.call {k : Kernel} (h : Ready k w) {c : Call} {r : SysResult Nat} {m' : Machine}
    (hout : Outside k.m.phys.regions c) (hc : c.exec k.m = some (r, m')) :
    ∃ w', Ready { k with m := m' } w' ∧ Confined w w' := by
  rw [← h.holds.m] at hout hc
  obtain ⟨w', rfl, hfit, hconf⟩ := call_step h.fit hout hc
  refine ⟨w', ⟨⟨rfl, hconf.ctxs.trans h.holds.ctxs, hfit.inv, hfit.full, ?_⟩, hfit.temp, hfit.clean,
    fun f hf => hconf.plain f (h.holds.loose hf).mem (h.plain f hf), ?_⟩, hconf⟩
  · rw [hconf.live]
    exact h.holds.owned
  · rw [hconf.regions]
    exact h.nonzero

theorem kernelStep_ready {k k' : Kernel} {e : Event} (h : Ready k w) (ha : Allowed k e)
    (hs : kernelStep k e = some k') : ∃ w', Ready k' w' := by
  cases e with
  | op o =>
    obtain ⟨w', hw', hst⟩ := step_holds h.holds hs
    obtain ⟨hst, hp⟩ := hst ha h.plain
    exact ⟨w', hw', hst.temp h.temp, hst.clean h.clean, hp, hst.regions ▸ h.nonzero⟩
  | call c =>
    obtain ⟨⟨r, m'⟩, hc, hk⟩ := Option.map_eq_some_iff.mp hs
    cases hk
    obtain ⟨w', hw', -⟩ := h.call ha hc
    exact ⟨w', hw'⟩
  | store virt value =>
    obtain ⟨m', hst, hk⟩ := Option.map_eq_some_iff.mp hs
    cases hk
    rw [← h.holds.m] at hst
    obtain ⟨a, rfl, hsame, hinv⟩ := userStore_spec h.fit hst
    have hsteady := hsame.steady h.holds.inv rfl
    exact ⟨_, ⟨rfl, h.holds.ctxs, hinv, hsame.full h.holds.inv rfl h.holds.full, h.holds.owned⟩,
      hsteady.temp h.temp, hsteady.clean h.clean, h.plain, h.nonzero⟩

/-- The machine when `main` starts: one PML4, a free temporary page, and the
`Phys` values that code holds. All regions begin at the boundary of high memory. -/
structure Booted (w : World) (frames : List Nat) : Prop where
  inv : Inv w
  nonzero : ¬ Phys.Managed w.m.phys.regions 0
  ctxs : w.ctxs = []
  temp : TempFree w.m
  clean : Clean w
  held : frames.Subperm w.s.live
  plain : ∀ f ∈ frames, w.place f = none

theorem Booted.ready {frames : List Nat} {m : Machine} (h : Booted w frames)
    (hinit : initKernelPml4Entries w.m = some m) : ∃ w', Ready ⟨m, [], frames⟩ w' := by
  have hone : OneRoot w := by
    intro r hr
    have hr := h.inv.root r hr
    rw [h.ctxs] at hr
    exact List.mem_singleton.mp hr
  obtain ⟨w₁, rfl, hi₁, he₁, hfull⟩ := initKernelPml4Entries_spec h.inv hone hinit
  have hst := he₁.steady h.inv hi₁
  refine ⟨w₁, ⟨rfl, he₁.ctxs.trans h.ctxs, hi₁, hfull, ?_⟩, hst.temp h.temp, hst.clean h.clean, ?_,
    hst.regions ▸ h.nonzero⟩
  · rw [List.nil_append, he₁.live]
    exact h.held
  · exact fun f hf => hst.plain f (List.mem_append_left _ (h.held.subset hf)) (h.plain f hf)

theorem Booted.run {frames : List Nat} {m : Machine} {evs : List Event} {k : Kernel}
    (h : Booted w frames) (hinit : initKernelPml4Entries w.m = some m)
    (hallowed : Along kernelStep Allowed ⟨m, [], frames⟩ evs)
    (hrun : run kernelStep ⟨m, [], frames⟩ evs = some k) : ∃ w', Ready k w' :=
  invariant_along (I := fun k => ∃ w, Ready k w)
    (fun _ _ _ hk ha hs => by
      obtain ⟨w, hw⟩ := hk
      exact kernelStep_ready hw ha hs) (h.ready hinit) hallowed hrun

/-- In any state that the kernel can reach, no page call changes what a page of
the slots of the kernel is mapped to, in any of the page contexts: every entry
on the way to it is the same before and after, with all its flags. -/
theorem calls_spare_kernel_half {frames : List Nat} {m m' : Machine} {evs : List Event} {k : Kernel}
    {c : Call} {r : SysResult Nat} (hb : Booted w frames)
    (hinit : initKernelPml4Entries w.m = some m)
    (hallowed : Along kernelStep Allowed ⟨m, [], frames⟩ evs)
    (hrun : Run.run kernelStep ⟨m, [], frames⟩ evs = some k)
    (hout : Outside k.m.phys.regions c) (hcall : c.exec k.m = some (r, m')) (root virt : Nat)
    (hroot : root ∈ k.m.cr3 :: k.ctxs) (h₁ : 256 ≤ pml4Index virt) (h₂ : pml4Index virt ≤ 510) :
    entries next m'.mem root (indices virt) = entries next k.m.mem root (indices virt) ∧
      pageWord m'.mem root virt = pageWord k.m.mem root virt ∧ m'.cr3 = k.m.cr3 := by
  obtain ⟨w₁, hw₁⟩ := hb.run hinit hallowed hrun
  obtain ⟨w₂, hw₂, hconf⟩ := hw₁.call hout hcall
  have hplace : w₁.place root = some [] := by
    rcases List.mem_cons.mp hroot with rfl | hc
    · exact hw₁.holds.m ▸ hw₁.holds.inv.loaded
    · exact hw₁.holds.inv.ctx root (hw₁.holds.ctxs ▸ hc)
  have hent := hconf.entries hw₁.holds.inv hplace h₁ (by omega)
  have hm : w₂.m = m' := hw₂.holds.m
  rw [hm, hw₁.holds.m] at hent
  refine ⟨hent, lookup_congr hent, ?_⟩
  rw [← hm, hconf.cr3, hw₁.holds.m]

theorem bootBooted : Booted bootWorld [] where
  inv := bootInv
  nonzero := by decide
  ctxs := rfl
  temp := bootTempFree
  clean _ _ hm := absurd hm List.not_mem_nil
  held := List.nil_subperm
  plain _ hf := absurd hf List.not_mem_nil

/-- A user page is allocated and written. -/
def bootEvents : List Event := [.call (.allocPage 0x10000000 1 2), .store 0x10000008 77]

/-- Then video memory is mapped. -/
def bootCall : Call := .mapPhysicalMemory 0x10001000 0xb8000 1 2

theorem calls_spare_kernel_half_boot :
    ∃ k m', run kernelStep ⟨bootWorld.m, [], []⟩ bootEvents = some k ∧
      bootCall.exec k.m = some (.ok OK, m') ∧
      ∀ root virt, root ∈ k.m.cr3 :: k.ctxs → 256 ≤ pml4Index virt → pml4Index virt ≤ 510 →
        entries next m'.mem root (indices virt) = entries next k.m.mem root (indices virt) ∧
          pageWord m'.mem root virt = pageWord k.m.mem root virt ∧ m'.cr3 = k.m.cr3 := by
  have hev : (run kernelStep ⟨bootWorld.m, [], []⟩ bootEvents).any (fun k =>
      decide (k.m.phys.regions = [⟨0x1000000, 0x1010000⟩]) &&
        (bootCall.exec k.m).any fun x => decide (x.1.toOption = some OK)) = true := by
    decide +kernel
  obtain ⟨k, hk, hx⟩ := exists_of_any hev
  obtain ⟨hreg, hx⟩ := Bool.and_eq_true_iff.mp hx
  obtain ⟨⟨r, m'⟩, hc, hr⟩ := (Option.any_eq_true _ _).mp hx
  have hr : r = .ok OK := toOption_some (of_decide_eq_true hr)
  subst hr
  have hout : Outside k.m.phys.regions bootCall := by
    rw [of_decide_eq_true hreg]
    change ∀ f ∈ PageCalls.physPages 0xb8000 1, _
    decide
  have hallowed : Along kernelStep Allowed ⟨bootWorld.m, [], []⟩ bootEvents := by
    refine ⟨trivial, ?_⟩
    cases kernelStep ⟨bootWorld.m, [], []⟩ (.call (.allocPage 0x10000000 1 2)) with
    | none => trivial
    | some k₁ =>
      refine ⟨trivial, ?_⟩
      cases kernelStep k₁ (.store 0x10000008 77) with
      | none => trivial
      | some k₂ => trivial
  refine ⟨k, m', hk, hc, fun root virt hroot h₁ h₂ => ?_⟩
  exact calls_spare_kernel_half bootBooted (initKernelPml4Entries_full bootInv bootFull) hallowed hk
    hout hc root virt hroot h₁ h₂

end Crabos.Page
