import Crabos.Mem.Shared

/-!
# Ranges that `validate_map` has passed

`release_page` and `modify_page` check all pages of a range first, and then they
expect that no page is missing. The check asks for an entry that is not zero;
`unmap` asks for a frame that is not zero.
-/
namespace Crabos.Page

open Crabos.Words Crabos.Radix Crabos.Interface Crabos.User Crabos.Run

variable {w w' : World} {virt fl : Nat}

/-! One page. -/

/-- A page can be unmapped just when its entry has a frame. -/
theorem unmap_iff (hw : Sound w) (hv : pml4Index virt < 256) {e : Nat}
    (hword : pageWord w.m.mem w.m.cr3 virt = some e) :
    (∃ m', tables.unmap w.m virt = some m') ↔ frame e ≠ 0 := by
  constructor
  · rintro ⟨m', h⟩ h0
    obtain ⟨w', -, hend, -⟩ := unmap_ends hw hv h
    have hv' : pml4Index virt < 511 := by omega
    have hlast := hw.inv.linked.pageWord_eq hw.inv.loaded hv'
    rw [hword] at hlast
    cases hend with
    | done last entry some managed dropped =>
      rw [last] at hlast
      rw [Option.some.inj hlast] at h0
      exact some (entry.symm.trans h0)
    | foreign last some outside =>
      rw [last] at hlast
      rw [Option.some.inj hlast] at h0
      exact some h0
  · intro h0
    have hne : e ≠ 0 := by
      rintro rfl
      exact h0 rfl
    obtain ⟨t, hf, hslot⟩ := find_of_pageWord hword hne
    obtain ⟨m', hm'⟩ := unmap_total hw.inv (by omega) hf (hslot ▸ h0) (.inl hw.temp)
    refine ⟨m', ?_⟩
    change (unmap w.m virt).bind expect = some m'
    rw [hm']
    rfl

/-- A page with an entry can be modified. -/
theorem modify_total (fl : Nat) (hi : Inv w) {e : Nat}
    (hword : pageWord w.m.mem w.m.cr3 virt = some e) (h0 : e ≠ 0) : ∃ m', PageCalls.modifyAs tables fl w.m virt = some m' := by
  obtain ⟨t, hf, -⟩ := find_of_pageWord hword h0
  change ∃ m', (modify w.m virt fl).bind expect = some m'
  rw [modify, hi.checked_eq, hword]
  simp only [Option.map_some, Option.bind_some, if_neg h0, hi.load_last hf, hi.store_last hf]
  exact ⟨_, rfl⟩

/-! The loops. -/

theorem Sound.mapped_pages (hw : Sound w) {pages : List Nat}
    (h : validateMap (tables.entry w.m) 0 pages = some (.ok ())) :
    ∀ v ∈ pages, ∃ e, pageWord w.m.mem w.m.cr3 v = some e ∧ e ≠ 0 := by
  intro v hv
  obtain ⟨e, he, h0, -⟩ := validateMap_ok h v hv
  exact ⟨e, (hw.inv.pageEntry_eq v).symm.trans he, h0⟩

/-- Pages of the user half that come later in the list are other pages. -/
theorem indices_ne {v u : Nat} {pages : List Nat}
    (huser : ∀ x ∈ v :: pages, x < MAX_USER_ADDR ∧ PAGE_SIZE ∣ x) (hnd : (v :: pages).Nodup)
    (hu : u ∈ pages) : indices u ≠ indices v := by
  intro hidx
  have heq := indices_user (huser u (List.mem_cons_of_mem _ hu)) (huser v List.mem_cons_self) hidx
  exact (List.nodup_cons.mp hnd).1 (heq ▸ hu)

/-- All pages can be unmapped just when each of their entries has a frame. -/
theorem unmaps_iff {pages : List Nat} (hw : Sound w)
    (huser : ∀ v ∈ pages, v < MAX_USER_ADDR ∧ PAGE_SIZE ∣ v) (hnd : pages.Nodup)
    (hmapped : ∀ v ∈ pages, ∃ e, pageWord w.m.mem w.m.cr3 v = some e) :
    (∃ m', run tables.unmap w.m pages = some m') ↔
      ∀ v ∈ pages, ∀ e, pageWord w.m.mem w.m.cr3 v = some e → frame e ≠ 0 := by
  induction pages generalizing w with
  | nil => exact ⟨fun _ v hv => absurd hv List.not_mem_nil, fun _ => ⟨w.m, rfl⟩⟩
  | cons v pages ih =>
    have hv := user_index (huser v List.mem_cons_self).1
    obtain ⟨e₀, he₀⟩ := hmapped v List.mem_cons_self
    have hone := unmap_iff hw hv he₀
    -- what the first page leaves of the others
    have hrest : ∀ m', tables.unmap w.m v = some m' →
        ((∃ m'', run tables.unmap m' pages = some m'') ↔
          ∀ u ∈ pages, ∀ e, pageWord w.m.mem w.m.cr3 u = some e → frame e ≠ 0) := by
      intro m' hm'
      obtain ⟨w', rfl, hend, hw', -, -⟩ := unmap_ends hw hv hm'
      have hsame : ∀ u ∈ pages, pageWord w'.m.mem w'.m.cr3 u = pageWord w.m.mem w.m.cr3 u := by
        intro u hu
        have hu' := user_index (huser u (List.mem_cons_of_mem _ hu)).1
        rw [hend.cr3]
        exact hend.other hw.inv (by omega) hw.inv.loaded (by omega) (indices_ne huser hnd hu)
      rw [ih hw' (fun u hu => huser u (List.mem_cons_of_mem _ hu)) (List.nodup_cons.mp hnd).2
        fun u hu => (hsame u hu).symm ▸ hmapped u (List.mem_cons_of_mem _ hu)]
      exact forall₂_congr fun u hu => by rw [hsame u hu]
    rw [List.forall_mem_cons]
    constructor
    · rintro ⟨m'', h⟩
      obtain ⟨m', hm', h⟩ := Option.bind_eq_some_iff.mp h
      refine ⟨fun e he => ?_, (hrest m' hm').mp ⟨m'', h⟩⟩
      rw [Option.some.inj (he.symm.trans he₀)]
      exact hone.mp ⟨m', hm'⟩
    · rintro ⟨hfirst, hothers⟩
      obtain ⟨m', hm'⟩ := hone.mpr (hfirst e₀ he₀)
      obtain ⟨m'', h⟩ := (hrest m' hm').mpr hothers
      exact ⟨m'', by rw [run_cons, hm', Option.bind_some, h]⟩

theorem modifies_total {pages : List Nat} (hw : Sound w) (hfl : fl < PAGE_SIZE)
    (huser : ∀ v ∈ pages, v < MAX_USER_ADDR ∧ PAGE_SIZE ∣ v) (hnd : pages.Nodup)
    (hmapped : ∀ v ∈ pages, ∃ e, pageWord w.m.mem w.m.cr3 v = some e ∧ e ≠ 0) :
    ∃ m', run (PageCalls.modifyAs tables fl) w.m pages = some m' := by
  induction pages generalizing w with
  | nil => exact ⟨w.m, rfl⟩
  | cons v pages ih =>
    have hv := user_index (huser v List.mem_cons_self).1
    obtain ⟨e₀, he₀, h0⟩ := hmapped v List.mem_cons_self
    obtain ⟨m', hm'⟩ := modify_total fl hw.inv he₀ h0
    obtain ⟨w', rfl, hend, hw', -, -⟩ := modify_ends hw hv hfl hm'
    obtain ⟨m'', h⟩ := ih hw' (fun u hu => huser u (List.mem_cons_of_mem _ hu))
      (List.nodup_cons.mp hnd).2 fun u hu => by
        have hu' := user_index (huser u (List.mem_cons_of_mem _ hu)).1
        rw [hend.other hw.inv (by omega) (by omega) (indices_ne huser hnd hu)]
        exact hmapped u (List.mem_cons_of_mem _ hu)
    exact ⟨m'', by rw [run_cons, hm', Option.bind_some, h]⟩

/-! The calls. -/

section calls

variable {v n : Nat} {range : PageRange} (hn : PageRange.new v n = .ok range)
  (hvalid : validateMap (tables.entry w.m) 0 range.pages = some (.ok ()))

include hn hvalid

/-- After the check, a release succeeds just when each entry of the range has a frame. -/
theorem releasePage_iff (hw : Sound w) :
    (∃ m', PageCalls.releasePage tables w.m v n = some (.ok OK, m')) ↔
      ∀ u ∈ range.pages, ∀ e, pageWord w.m.mem w.m.cr3 u = some e → frame e ≠ 0 := by
  obtain ⟨huser, hnd⟩ := hw.range_user hn (.inr hvalid)
  have hmapped := hw.mapped_pages hvalid
  rw [← unmaps_iff hw huser hnd fun u hu => (hmapped u hu).imp fun _ h => h.1]
  simp only [PageCalls.releasePage, hn, PageCalls.orFail, hvalid, Option.bind_some,
    Option.map_eq_some_iff, Prod.mk.injEq, true_and, exists_eq_right]

theorem modifyPage_total (hw : Sound w) {bits : Nat} (hfl : PageCalls.userPageFlags bits = .ok fl) :
    ∃ m', PageCalls.modifyPage tables w.m v n bits = some (.ok OK, m') := by
  obtain ⟨huser, hnd⟩ := hw.range_user hn (.inr hvalid)
  obtain ⟨m', h⟩ := modifies_total hw (userPageFlags_lt hfl) huser hnd (hw.mapped_pages hvalid)
  refine ⟨m', ?_⟩
  simp only [PageCalls.modifyPage, hn, PageCalls.orFail, hvalid, Option.bind_some, hfl, h,
    Option.map_some]

end calls

/-! Runs of calls. -/

def callStep (m : Machine) (c : Call) : Option Machine := (c.exec m).map Prod.snd

/-- Neither the first page of physical memory is mapped, nor a frame of the allocator that has
no owner. -/
def Careful (m : Machine) (c : Call) : Prop := SparesZero c ∧ Shares m c

instance (m : Machine) : (c : Call) → Decidable (Careful m c)
  | .mapPhysicalMemory _ p n _ => inferInstanceAs (Decidable
      ((∀ f ∈ PageCalls.physPages p n, PAGE_SIZE ≤ f) ∧
        ∀ f ∈ PageCalls.physPages p n, Shareable m.phys f))
  | .allocPage _ _ _ => inferInstanceAs (Decidable (True ∧ True))
  | .releasePage _ _ => inferInstanceAs (Decidable (True ∧ True))
  | .modifyPage _ _ _ => inferInstanceAs (Decidable (True ∧ True))

theorem callStep_framed {m m' : Machine} {c : Call} (hc : Careful m c)
    (hs : callStep m c = some m')
    (h : ∃ w, w.m = m ∧ Sound w ∧ ¬ Phys.Managed w.m.phys.regions 0 ∧ Framed w.m) :
    ∃ w, w.m = m' ∧ Sound w ∧ ¬ Phys.Managed w.m.phys.regions 0 ∧ Framed w.m := by
  obtain ⟨w, rfl, hw, hz, hf⟩ := h
  obtain ⟨⟨r, m₁⟩, hx, rfl⟩ := Option.map_eq_some_iff.mp hs
  obtain ⟨w', hm, hw', hconf, hframed⟩ := call_sound hw hz hc.2 hx
  exact ⟨w', hm, hw', hconf.regions ▸ hz, hframed hc.1 hf⟩

/-- The address space has no page. -/
def NoPages (m : Machine) : Prop := ∀ v, pml4Index v < 256 → pageWord m.mem m.cr3 v = some 0

/-- In an address space that careful calls have built, a release or a change of flags returns
OK once its range has been checked. -/
theorem validated_calls_return {k : Kernel} {calls : List Call} {m : Machine} {v n : Nat}
    {range : PageRange} (hk : Reachable k) (hempty : NoPages k.m)
    (hcareful : Along callStep Careful k.m calls) (hrun : run callStep k.m calls = some m)
    (hn : PageRange.new v n = .ok range)
    (hvalid : validateMap (tables.entry m) 0 range.pages = some (.ok ())) :
    (∃ m', PageCalls.releasePage tables m v n = some (.ok OK, m')) ∧
      ∀ bits fl, PageCalls.userPageFlags bits = .ok fl →
        ∃ m', PageCalls.modifyPage tables m v n bits = some (.ok OK, m') := by
  obtain ⟨w₀, hw₀⟩ := hk.poised
  have hframed : Framed k.m := by
    intro v hv e he h0
    exact absurd (Option.some.inj (he.symm.trans (hempty v hv))) h0
  obtain ⟨w, rfl, hw, hz, hf⟩ := invariant_along
    (I := fun m => ∃ w, w.m = m ∧ Sound w ∧ ¬ Phys.Managed w.m.phys.regions 0 ∧ Framed w.m)
    (fun _ _ _ hi hc hs => callStep_framed hc hs hi)
    ⟨w₀, hw₀.holds.m, hw₀.sound, hw₀.nonzero, hw₀.holds.m.symm ▸ hframed⟩ hcareful hrun
  constructor
  · refine (releasePage_iff hn hvalid hw).mpr fun u hu e he => ?_
    obtain ⟨e', he', h0⟩ := hw.mapped_pages hvalid u hu
    rw [Option.some.inj (he'.symm.trans he)] at h0
    obtain ⟨huser, -⟩ := hw.range_user hn (.inr hvalid)
    exact hf u (user_index (huser u hu).1) e he h0
  · exact fun bits fl hfl => modifyPage_total hn hvalid hw hfl

theorem bootNoPages : NoPages bootWorld.m := by
  intro v hv
  have hslot : bootMem (slot 0x1000 (pml4Index v)) = 0 := by
    have hlow : slot 0x1000 (pml4Index v) < 0x1800 := by
      simp only [slot]
      omega
    have htable : kernelTable 256 = 0x300000 := rfl
    generalize slot 0x1000 (pml4Index v) = a at hlow ⊢
    rw [bootMem, if_neg (by omega), if_neg (by omega), if_neg (by omega), if_neg (by omega)]
  change lookup next bootMem 0x1000 (lastTable v) (pml1Index v) = some 0
  rw [lastTable, lookup, if_pos hslot]

/-- A new page, its frame at a second page, and video memory. -/
def bootCalls : List Call :=
  [.allocPage 0x10000000 1 2, .mapPhysicalMemory 0x10001000 0x1001000 1 0,
    .mapPhysicalMemory 0x10002000 0xb8000 1 2]

theorem validated_calls_return_boot :
    ∃ m, run callStep bootWorld.m bootCalls = some m ∧
      validateMap (tables.entry m) 0 (PageRange.pages ⟨0x10000000, 3⟩) = some (.ok ()) ∧
      (∃ m', PageCalls.releasePage tables m 0x10000000 3 = some (.ok OK, m')) ∧
      ∀ bits fl, PageCalls.userPageFlags bits = .ok fl →
        ∃ m', PageCalls.modifyPage tables m 0x10000000 3 bits = some (.ok OK, m') := by
  have hrun : (run callStep bootWorld.m bootCalls).any (fun m =>
      decide (validateMap (tables.entry m) 0 (PageRange.pages ⟨0x10000000, 3⟩) =
        some (.ok ()))) = true := by
    decide +kernel
  obtain ⟨m, hm, hv⟩ := exists_of_any hrun
  have hvalid := of_decide_eq_true hv
  have hcareful : Along callStep Careful bootWorld.m bootCalls := by decide +kernel
  exact ⟨m, hm, hvalid, validated_calls_return bootReachable bootNoPages hcareful hm rfl hvalid⟩

/-- The first page of physical memory is mapped, and it passes the check of a release. -/
theorem zero_frame_panics :
    Reachable ⟨bootWorld.m, [], []⟩ ∧ NoPages bootWorld.m ∧
      ∃ m, run callStep bootWorld.m [.mapPhysicalMemory 0x10000000 0 1 0] = some m ∧
        validateMap (tables.entry m) 0 (PageRange.pages ⟨0x10000000, 1⟩) = some (.ok ()) ∧
        PageCalls.releasePage tables m 0x10000000 1 = none := by
  refine ⟨bootReachable, bootNoPages, ?_⟩
  have hrun : (run callStep bootWorld.m [.mapPhysicalMemory 0x10000000 0 1 0]).any (fun m =>
      decide (validateMap (tables.entry m) 0 (PageRange.pages ⟨0x10000000, 1⟩) =
        some (.ok ())) && (PageCalls.releasePage tables m 0x10000000 1).isNone) = true := by
    decide +kernel
  obtain ⟨m, hm, hx⟩ := exists_of_any hrun
  obtain ⟨hv, hnone⟩ := Bool.and_eq_true_iff.mp hx
  exact ⟨m, hm, of_decide_eq_true hv, Option.isNone_iff_eq_none.mp hnone⟩

end Crabos.Page
