import Crabos.Mem.PageCtx
import Crabos.Mem.PageLookup

/-!
# The kernel half in all page contexts

The kernel's use of page contexts: contexts are made, cloned, loaded and
dropped, and frames are mapped and unmapped in the loaded one, in any order.
A new PML4 copies the slots of the kernel by value, and they are all there
once `init_kernel_pml4_entries` has run.
-/
namespace Crabos.Page

open Crabos.Words Crabos.Radix Crabos.Interface Crabos.User Crabos.Run

/-- The machine with the `PageCtx` and the `Phys` values that code holds. -/
structure Kernel where
  m : Machine
  ctxs : List Nat
  frames : List Nat

inductive Op where
  | newCtx
  | cloneCtx (c : Nat)
  | currentCtx
  | dropCtx (c : Nat)
  | setCtx (c : Nat)
  | alloc
  | drop (f : Nat)
  | map (f virt flags : Nat)
  | unmap (virt : Nat)
  deriving DecidableEq, Repr

/-- A `PageCtx` or a `Phys` is used by its holder. `Phys::new` makes a `Phys`
for memory outside of the regions at any time. -/
def Enabled (k : Kernel) : Op → Prop
  | .newCtx => True
  | .cloneCtx c => c ∈ k.ctxs
  | .currentCtx => True
  | .dropCtx c => c ∈ k.ctxs
  | .setCtx c => c ∈ k.ctxs
  | .alloc => True
  | .drop f => f ∈ k.frames
  | .map f virt flags => pml4Index virt ≠ 511 ∧ flags ≤ PageFlags.all ∧
    (f ∈ k.frames ∨ ¬ Phys.Managed k.m.phys.regions f)
  | .unmap virt => pml4Index virt ≠ 511

instance (k : Kernel) : (op : Op) → Decidable (Enabled k op)
  | .newCtx => inferInstanceAs (Decidable True)
  | .cloneCtx c => inferInstanceAs (Decidable (c ∈ k.ctxs))
  | .currentCtx => inferInstanceAs (Decidable True)
  | .dropCtx c => inferInstanceAs (Decidable (c ∈ k.ctxs))
  | .setCtx c => inferInstanceAs (Decidable (c ∈ k.ctxs))
  | .alloc => inferInstanceAs (Decidable True)
  | .drop f => inferInstanceAs (Decidable (f ∈ k.frames))
  | .map f virt flags => inferInstanceAs (Decidable (pml4Index virt ≠ 511 ∧
      flags ≤ PageFlags.all ∧ (f ∈ k.frames ∨ ¬ Phys.Managed k.m.phys.regions f)))
  | .unmap virt => inferInstanceAs (Decidable (pml4Index virt ≠ 511))

def exec (k : Kernel) : Op → Option Kernel
  | .newCtx => (newCtx k.m).map fun (x, m) => { k with m := m, ctxs := x.toList ++ k.ctxs }
  | .cloneCtx c => (Phys.clone k.m.phys c).toOption.map fun (c, p) =>
    { k with m := { k.m with phys := p }, ctxs := c :: k.ctxs }
  | .currentCtx => (currentCtx k.m).map fun (c, m) => { k with m := m, ctxs := c :: k.ctxs }
  | .dropCtx c => (drop k.m c).map fun m => { k with m := m, ctxs := k.ctxs.erase c }
  | .setCtx c => (setCtx k.m c).map fun m => { k with m := m, ctxs := k.ctxs.erase c }
  | .alloc => (alloc k.m).map fun (x, m) => { k with m := m, frames := x.toList ++ k.frames }
  | .drop f => (drop k.m f).map fun m => { k with m := m, frames := k.frames.erase f }
  | .map f virt flags => (map k.m f virt flags).map fun (_, m) =>
    { k with m := m, frames := k.frames.erase f }
  | .unmap virt => (unmap k.m virt).map fun (_, m) => { k with m := m }

def step (k : Kernel) (op : Op) : Option Kernel := if Enabled k op then exec k op else none

/-- The tables are well formed, no slot of the kernel is missing, and every
value that code holds has its count. -/
structure Holds (k : Kernel) (w : World) : Prop where
  m : w.m = k.m
  ctxs : w.ctxs = k.ctxs
  inv : Inv w
  full : Full w
  owned : (k.ctxs ++ k.frames).Subperm w.s.live

variable {w w' : World} {k k' : Kernel}

theorem Holds.owned_frame (h : Holds k w) {f : Nat} (hf : f ∈ k.frames) :
    (k.ctxs ++ k.frames.erase f).Subperm (w.s.live.erase f) := by
  have hperm : (k.ctxs ++ k.frames).Perm (f :: (k.ctxs ++ k.frames.erase f)) :=
    ((List.perm_cons_erase hf).append_left k.ctxs).trans List.perm_middle
  have herase := (hperm.subperm_right.mp h.owned).erase f
  rwa [List.erase_cons_head] at herase

theorem Holds.owned_ctx (h : Holds k w) {c : Nat} (hc : c ∈ k.ctxs) :
    (k.ctxs.erase c ++ k.frames).Subperm (w.s.live.erase c) := by
  have herase := h.owned.erase c
  rwa [List.erase_append_left _ hc] at herase

theorem Holds.loose (h : Holds k w) {f : Nat} (hf : f ∈ k.frames) : Loose w f := by
  refine ⟨h.owned.subset (List.mem_append_right _ hf), ?_⟩
  rw [h.ctxs]
  exact (List.sublist_append_left _ _).subperm.trans (h.owned_frame hf)

theorem MapEnd.full {f virt fl : Nat} {r : Except MapError Unit} (h : MapEnd w f virt fl r w')
    (hi : Inv w) (hv : pml4Index virt < 511) (hf : Full w) : Full w' := by
  cases h with
  | done ext inv last empty =>
    exact (mapTo_oneSlot inv (inv.last hv last) f fl).full inv (ext.full hi hf)
  | fails ext inv dropped used => exact dropped.sameTables.full inv rfl (ext.full hi hf)

theorem MapForeignEnd.full {f virt fl : Nat} {r : Except MapError Unit}
    (h : MapForeignEnd w f virt fl r w') (hi : Inv w) (hv : pml4Index virt < 511) (hf : Full w) :
    Full w' := by
  cases h with
  | done ext inv last empty =>
    exact (inv.write_oneSlot (inv.last hv last) (f ||| fl)).full inv (ext.full hi hf)
  | fails ext inv e => exact ext.full hi hf

theorem UnmapEnd.full {virt : Nat} {r : Except NotMapped Unit} (h : UnmapEnd w virt r w')
    (hi : Inv w) (hv : pml4Index virt < 511) (hf : Full w) : Full w' := by
  cases h with
  | fails word none => exact hf
  | done last entry some managed dropped =>
    exact (clear_oneSlot hi (hi.last hv last) dropped).full hi hf
  | foreign last some outside => exact (hi.write_oneSlot (hi.last hv last) 0).full hi hf

/-- The contexts and the `Phys` values of others after each function. -/
theorem MapEnd.held {f virt fl : Nat} {r : Except MapError Unit} (h : MapEnd w f virt fl r w') :
    w'.ctxs = w.ctxs ∧ w'.s.live = w.s.live.erase f := by
  cases h with
  | done ext inv last empty => exact ⟨ext.ctxs, congrArg (List.erase · f) ext.live⟩
  | fails ext inv dropped used => exact ⟨ext.ctxs, congrArg (List.erase · f) ext.live⟩

theorem MapForeignEnd.held {f virt fl : Nat} {r : Except MapError Unit}
    (h : MapForeignEnd w f virt fl r w') : w'.ctxs = w.ctxs ∧ w'.s.live = w.s.live := by
  cases h with
  | done ext inv last empty => exact ⟨ext.ctxs, ext.live⟩
  | fails ext inv e => exact ⟨ext.ctxs, ext.live⟩

theorem UnmapEnd.held {virt : Nat} {r : Except NotMapped Unit} (h : UnmapEnd w virt r w') :
    w'.ctxs = w.ctxs ∧ w'.s.live = w.s.live := by
  cases h with
  | fails word none => exact ⟨rfl, rfl⟩
  | done last entry some managed dropped => exact ⟨rfl, List.erase_cons_head _ _⟩
  | foreign last some outside => exact ⟨rfl, rfl⟩

section steady

variable {f virt fl : Nat}

theorem not_temp (htemp : indices virt ≠ indices w.m.tempPage) :
    ¬ (lastTable w.m.tempPage = lastTable virt ∧ pml1Index w.m.tempPage = pml1Index virt) :=
  fun h => htemp (indices_inj h.1 h.2).symm

theorem MapEnd.steady {r : Except MapError Unit} (h : MapEnd w f virt fl r w') (hi : Inv w)
    (hv : pml4Index virt < 511) (htemp : indices virt ≠ indices w.m.tempPage) (hf : Loose w f)
    (hplain : w.place f = none) (hfl : fl < PAGE_SIZE) : Steady w w' := by
  have hown : f ∈ w.s.owners := List.mem_append_left _ hf.mem
  cases h with
  | @done w₁ t ext inv last empty =>
    have h1 := mapTo_oneSlot inv (inv.last hv last) f fl
    refine (ext.steady hi inv).trans (h1.steady inv ?_ ?_ ?_) fun _ _ hn => hn
    · rw [ext.tempPage]
      exact not_temp htemp
    · intro u j hm hne
      simp only [World.mapTo] at hm
      split at hm
      · rcases List.mem_cons.mp hm with hx | hm
        · cases hx
          exact absurd ⟨rfl, rfl⟩ hne
        · exact hm
      · exact hm
    · intro _ _
      have ha : PAGE_SIZE ∣ f := by
        obtain ⟨free, hs⟩ := hi.phys
        exact (hs.frame f hown).1
      change w₁.place (frame ((w₁.write _ (f ||| fl)).m.mem _)) = none
      rw [write_self, frame_or f hfl, frame_aligned ha]
      exact (ext.frames f hown hplain).1
  | fails ext inv dropped used =>
    exact (ext.steady hi inv).trans (dropped.sameTables.steady inv rfl) fun _ _ hn => hn

theorem MapForeignEnd.steady {r : Except MapError Unit} (h : MapForeignEnd w f virt fl r w')
    (hi : Inv w) (hv : pml4Index virt < 511) (htemp : indices virt ≠ indices w.m.tempPage) :
    Steady w w' := by
  cases h with
  | done ext inv last empty =>
    have h1 := inv.write_oneSlot (inv.last hv last) (f ||| fl)
    refine (ext.steady hi inv).trans (h1.steady inv ?_ (fun _ _ hm _ => hm) ?_) fun _ _ hn => hn
    · rw [ext.tempPage]
      exact not_temp htemp
    · exact fun _ hm => absurd hm (inv.zero_not_mapped empty)
  | fails ext inv e => exact ext.steady hi inv

theorem UnmapEnd.steady {r : Except NotMapped Unit} (h : UnmapEnd w virt r w') (hi : Inv w)
    (hv : pml4Index virt < 511) (htemp : indices virt ≠ indices w.m.tempPage) : Steady w w' := by
  cases h with
  | fails word none => exact (SameTables.refl w).steady hi rfl
  | done last entry some managed dropped =>
    refine (clear_oneSlot hi (hi.last hv last) dropped).steady hi (not_temp htemp) ?_ ?_
    · exact fun _ _ hm _ => List.mem_of_mem_erase hm
    · exact fun _ hm => absurd hm hi.erase_not_mem
  | foreign last some outside =>
    refine (hi.write_oneSlot (hi.last hv last) 0).steady hi (not_temp htemp)
      (fun _ _ hm _ => hm) ?_
    exact fun _ hm => absurd ((hi.mapped _ _).mp hm).2.2 outside

theorem ModifyEnd.steady {r : Except NotMapped Unit} (h : ModifyEnd w virt fl r w') (hi : Inv w)
    (hv : pml4Index virt < 511) (htemp : indices virt ≠ indices w.m.tempPage)
    (hfl : fl < PAGE_SIZE) : Steady w w' := by
  cases h with
  | fails word => exact (SameTables.refl w).steady hi rfl
  | @done t e last entry some =>
    subst entry
    have hsub : ∀ x, x ∈ (w.setEntry t (pml1Index virt)
        (setFlags (w.m.mem (slot t (pml1Index virt))) fl)).slots → x ∈ w.slots := by
      intro x hm
      simp only [World.setEntry] at hm
      split at hm
      · exact hm
      · exact List.mem_of_mem_erase hm
    refine (setEntry_oneSlot hi (hi.last hv last) _).steady hi (not_temp htemp)
      (fun _ _ hm _ => hsub _ hm) ?_
    intro hc hm
    change w.place (frame ((w.write _ _).m.mem _)) = none
    rw [write_self, frame_setFlags _ hfl]
    exact hc _ _ (hsub _ hm)

end steady

/-! One lemma for each kind of event. -/

theorem Holds.newCtx (h : Holds k w) (he : exec k .newCtx = some k') :
    ∃ w', Holds k' w' ∧ Steady w w' := by
  obtain ⟨⟨x, m'⟩, hn, hk⟩ := Option.map_eq_some_iff.mp he
  cases hk
  rw [← h.m] at hn
  rcases newCtx_spec h.inv hn with ⟨rfl, rfl⟩ | ⟨f, q, mem, rfl, rfl, hh, hnew, hinv⟩
  · exact ⟨w, ⟨rfl, h.ctxs, h.inv, h.full, h.owned⟩, (SameTables.refl w).steady h.inv rfl⟩
  · refine ⟨_, ⟨rfl, congrArg (f :: ·) h.ctxs, hinv, fun i h₁ h₂ => ?_, ?_⟩,
      newCtx_steady h.inv hh hnew⟩
    · have hword : mem (slot w.m.cr3 i) = w.m.mem (slot w.m.cr3 i) := by
        refine (hnew.other hh.inv (t := w.m.cr3) h.inv.loaded (by omega)).trans ?_
        exact hh.mem h.inv _ [] i h.inv.loaded (by omega)
      change mem (slot w.m.cr3 i) ≠ 0
      rw [hword]
      exact h.full i h₁ h₂
    · exact (List.subperm_cons f).mpr h.owned

theorem Holds.share (h : Holds k w) {c c' : Nat} {q : Phys.PhysMem} (hc : w.place c = some [])
    (hn : Phys.new k.m.phys c = .ok (c', q)) :
    ∃ w', Holds { k with m := { k.m with phys := q }, ctxs := c' :: k.ctxs } w' ∧ Steady w w' := by
  rw [← h.m] at hn ⊢
  obtain ⟨rfl, hsame, hinv⟩ := new_spec h.inv hc hn
  exact ⟨_, ⟨rfl, congrArg (c' :: ·) h.ctxs, hinv, hsame.full h.inv rfl h.full,
    (List.subperm_cons c').mpr h.owned⟩, hsame.steady h.inv rfl⟩

theorem Holds.dropCtx (h : Holds k w) {c : Nat} {m' : Machine} (hc : c ∈ k.ctxs)
    (hd : drop k.m c = some m') :
    ∃ w', Holds { k with m := m', ctxs := k.ctxs.erase c } w' ∧ Steady w w' := by
  rw [← h.m] at hd
  rw [← h.ctxs] at hc
  obtain ⟨p, rfl, hdr, hinv⟩ := dropCtx_spec h.inv hc hd
  have hforget := h.inv.forget hc
  refine ⟨_, ⟨rfl, congrArg (List.erase · c) h.ctxs, hinv, ?_, h.owned_ctx (h.ctxs ▸ hc)⟩,
    dropCtx_steady h.inv hc hdr⟩
  exact Dropped.sameTables (w := w.forget c) hdr |>.full hforget rfl h.full

/-- The loaded context changes and the old one is held in its place. -/
theorem Holds.switch (h : Holds k w) {c : Nat} (hc : c ∈ k.ctxs) :
    Holds { k with m := { k.m with cr3 := c }, ctxs := k.m.cr3 :: k.ctxs.erase c } (w.switch c) := by
  have hcw : c ∈ w.ctxs := h.ctxs ▸ hc
  refine ⟨?_, ?_, h.inv.switch hcw, fun i h₁ h₂ => ?_, ?_⟩
  · rw [← h.m]
    rfl
  · rw [← h.m, ← h.ctxs]
    rfl
  · change w.m.mem (slot c i) ≠ 0
    rw [h.inv.linked.agree c w.m.cr3 i (h.inv.ctx c hcw) h.inv.loaded h₁ h₂]
    exact h.full i h₁ h₂
  · rw [← h.m]
    exact (List.subperm_cons _).mpr (h.owned_ctx hc)

theorem Holds.setCtx (h : Holds k w) {c : Nat} {m' : Machine} (hc : c ∈ k.ctxs)
    (hs : setCtx k.m c = some m') :
    ∃ w', Holds { k with m := m', ctxs := k.ctxs.erase c } w' ∧ Steady w w' := by
  have hswitch := h.inv.switch_steady (h.ctxs ▸ hc : c ∈ w.ctxs)
  obtain ⟨w', h', hst⟩ := (h.switch hc).dropCtx List.mem_cons_self hs
  rw [List.erase_cons_head] at h'
  refine ⟨w', h', hswitch.trans hst fun f hf hn => ?_⟩
  exact hst.plain f ((h.inv.switch_owners (h.ctxs ▸ hc)).mem_iff.mpr hf) hn

theorem Holds.alloc (h : Holds k w) (he : exec k .alloc = some k') :
    ∃ w', Holds k' w' ∧ Steady w w' ∧ ∀ f ∈ k'.frames, f ∈ k.frames ∨ w'.place f = none := by
  obtain ⟨⟨x, m'⟩, ha, hk⟩ := Option.map_eq_some_iff.mp he
  cases hk
  rw [← h.m] at ha
  rcases alloc_spec h.inv ha with ⟨rfl, rfl⟩ | ⟨f, q, rfl, rfl, hh⟩
  · exact ⟨w, ⟨rfl, h.ctxs, h.inv, h.full, h.owned⟩, (SameTables.refl w).steady h.inv rfl,
      fun _ hf => .inl hf⟩
  · have hsame := hh.sameTables h.inv
    refine ⟨w.hand f q, ⟨rfl, h.ctxs, hh.inv, hsame.full h.inv rfl h.full, ?_⟩,
      hsame.steady h.inv rfl, fun g hg => ?_⟩
    · exact List.perm_middle.subperm_right.mpr ((List.subperm_cons f).mpr h.owned)
    · rcases List.mem_cons.mp hg with rfl | hg
      · exact .inr (h.inv.unowned_no_table hh.unowned)
      · exact .inl hg

theorem Holds.drop (h : Holds k w) {f : Nat} {m' : Machine} (hf : f ∈ k.frames)
    (hd : drop k.m f = some m') :
    ∃ w', Holds { k with m := m', frames := k.frames.erase f } w' ∧ Steady w w' := by
  rw [← h.m] at hd
  have hl := h.loose hf
  obtain ⟨p, rfl, hdr⟩ := drop_spec h.inv (hl.dropping h.inv) hd
  exact ⟨w.dropped f p, ⟨rfl, h.ctxs, hdr.inv h.inv hl, hdr.sameTables.full h.inv rfl h.full,
    h.owned_frame hf⟩, hdr.sameTables.steady h.inv rfl⟩

theorem Holds.map (h : Holds k w) {f virt flags : Nat} {r : Except MapError Unit} {m' : Machine}
    (hv : pml4Index virt < 511) (hfl : flags ≤ PageFlags.all)
    (hf : f ∈ k.frames ∨ ¬ Phys.Managed k.m.phys.regions f)
    (hm : map k.m f virt flags = some (r, m')) :
    ∃ w', Holds { k with m := m', frames := k.frames.erase f } w' ∧
      (indices virt ≠ indices k.m.tempPage → (f ∈ k.frames → w.place f = none) → Steady w w') := by
  have hlt : flags < PAGE_SIZE := Nat.lt_of_le_of_lt hfl (by decide)
  rw [← h.m] at hm
  by_cases hmem : f ∈ k.frames
  · have hl := h.loose hmem
    obtain ⟨w', rfl, hend⟩ := map_spec h.inv hv (h.full.topReady hv) hl hm
    obtain ⟨hctxs, hlive⟩ := hend.held
    refine ⟨w', ⟨rfl, hctxs.trans h.ctxs, hend.inv hv hl hlt, hend.full h.inv hv h.full, ?_⟩,
      fun htemp hplain => hend.steady h.inv hv (h.m ▸ htemp) hl (hplain hmem) hlt⟩
    rw [hlive]
    exact h.owned_frame hmem
  · have hn : ¬ Phys.Managed w.m.phys.regions f := h.m ▸ hf.resolve_left hmem
    obtain ⟨w', rfl, hend⟩ := mapForeign_spec h.inv hv (h.full.topReady hv) hn hm
    obtain ⟨hctxs, hlive⟩ := hend.held
    refine ⟨w', ⟨rfl, hctxs.trans h.ctxs, hend.inv h.inv hv hn hlt, hend.full h.inv hv h.full, ?_⟩,
      fun htemp _ => hend.steady h.inv hv (h.m ▸ htemp)⟩
    rw [hlive, List.erase_of_not_mem hmem]
    exact h.owned

theorem Holds.unmap (h : Holds k w) {virt : Nat} {r : Except NotMapped Unit} {m' : Machine}
    (hv : pml4Index virt < 511) (hu : unmap k.m virt = some (r, m')) :
    ∃ w', Holds { k with m := m' } w' ∧
      (indices virt ≠ indices k.m.tempPage → Steady w w') := by
  rw [← h.m] at hu
  obtain ⟨w', rfl, hend⟩ := unmap_spec h.inv hv hu
  obtain ⟨hctxs, hlive⟩ := hend.held
  refine ⟨w', ⟨rfl, hctxs.trans h.ctxs, hend.inv h.inv hv, hend.full h.inv hv h.full, ?_⟩,
    fun htemp => hend.steady h.inv hv (h.m ▸ htemp)⟩
  rw [hlive]
  exact h.owned

theorem toOption_some {ε α : Type} {x : Except ε α} {a : α} (h : x.toOption = some a) : x = .ok a := by
  cases x with
  | error e => cases h
  | ok b =>
    cases h
    rfl

/-- A `map` or `unmap` spares the temporary page. -/
def Spares (k : Kernel) : Op → Prop
  | .map _ virt _ => indices virt ≠ indices k.m.tempPage
  | .unmap virt => indices virt ≠ indices k.m.tempPage
  | _ => True

/-- Frames that code holds are no tables. -/
def Plain (k : Kernel) (w : World) : Prop := ∀ f ∈ k.frames, w.place f = none

theorem Holds.owner (h : Holds k w) {f : Nat} (hf : f ∈ k.frames) : f ∈ w.s.owners :=
  List.mem_append_left _ (h.loose hf).mem

theorem Plain.steady (hp : Plain k w) (h : Holds k w) (hst : Steady w w')
    (hsub : ∀ f ∈ k'.frames, f ∈ k.frames ∨ w'.place f = none) : Plain k' w' := by
  intro f hf
  rcases hsub f hf with hold | hn
  · exact hst.plain f (h.owner hold) (hp f hold)
  · exact hn

theorem step_holds {op : Op} (h : Holds k w) (hs : step k op = some k') :
    ∃ w', Holds k' w' ∧ (Spares k op → Plain k w → Steady w w' ∧ Plain k' w') := by
  rw [step] at hs
  split at hs
  · rename_i he
    cases op with
    | newCtx =>
      obtain ⟨w', h', hst⟩ := h.newCtx hs
      obtain ⟨⟨x, m⟩, -, hk⟩ := Option.map_eq_some_iff.mp hs
      cases hk
      exact ⟨w', h', fun _ hp => ⟨hst, hp.steady h hst fun _ hf => .inl hf⟩⟩
    | cloneCtx c =>
      obtain ⟨⟨c', p⟩, hn, hk⟩ := Option.map_eq_some_iff.mp hs
      cases hk
      obtain ⟨w', h', hst⟩ := h.share (h.inv.ctx c (h.ctxs ▸ he)) (toOption_some hn)
      exact ⟨w', h', fun _ hp => ⟨hst, hp.steady h hst fun _ hf => .inl hf⟩⟩
    | currentCtx =>
      obtain ⟨⟨c, m⟩, hc, hk⟩ := Option.map_eq_some_iff.mp hs
      obtain ⟨⟨c', p⟩, hn, hc⟩ := Option.map_eq_some_iff.mp hc
      cases hk
      cases hc
      obtain ⟨w', h', hst⟩ := h.share (h.m ▸ h.inv.loaded) (toOption_some hn)
      exact ⟨w', h', fun _ hp => ⟨hst, hp.steady h hst fun _ hf => .inl hf⟩⟩
    | dropCtx c =>
      obtain ⟨m', hd, hk⟩ := Option.map_eq_some_iff.mp hs
      cases hk
      obtain ⟨w', h', hst⟩ := h.dropCtx he hd
      exact ⟨w', h', fun _ hp => ⟨hst, hp.steady h hst fun _ hf => .inl hf⟩⟩
    | setCtx c =>
      obtain ⟨m', hd, hk⟩ := Option.map_eq_some_iff.mp hs
      cases hk
      obtain ⟨w', h', hst⟩ := h.setCtx he hd
      exact ⟨w', h', fun _ hp => ⟨hst, hp.steady h hst fun _ hf => .inl hf⟩⟩
    | alloc =>
      obtain ⟨w', h', hst, hnew⟩ := h.alloc hs
      exact ⟨w', h', fun _ hp => ⟨hst, hp.steady h hst hnew⟩⟩
    | drop f =>
      obtain ⟨m', hd, hk⟩ := Option.map_eq_some_iff.mp hs
      cases hk
      obtain ⟨w', h', hst⟩ := h.drop he hd
      exact ⟨w', h', fun _ hp =>
        ⟨hst, hp.steady h hst fun _ hf => .inl (List.mem_of_mem_erase hf)⟩⟩
    | map f virt flags =>
      obtain ⟨⟨r, m'⟩, hm, hk⟩ := Option.map_eq_some_iff.mp hs
      cases hk
      obtain ⟨hv, hfl, hf⟩ := he
      have hlt := pml4Index_lt virt
      obtain ⟨w', h', hst⟩ := h.map (by omega) hfl hf hm
      refine ⟨w', h', fun htemp hp => ?_⟩
      have hst := hst htemp (hp f)
      exact ⟨hst, hp.steady h hst fun _ hf => .inl (List.mem_of_mem_erase hf)⟩
    | unmap virt =>
      obtain ⟨⟨r, m'⟩, hu, hk⟩ := Option.map_eq_some_iff.mp hs
      cases hk
      have hlt := pml4Index_lt virt
      have hv : pml4Index virt ≠ 511 := he
      obtain ⟨w', h', hst⟩ := h.unmap (by omega) hu
      exact ⟨w', h', fun htemp hp => ⟨hst htemp, hp.steady h (hst htemp) fun _ hf => .inl hf⟩⟩
  · cases hs

/-- Two PML4s lead to the same tables in the kernel half. -/
theorem Inv.kernel_entries (hi : Inv w) {a b virt : Nat} (ha : w.place a = some [])
    (hb : w.place b = some []) (h₁ : 256 ≤ pml4Index virt) (h₂ : pml4Index virt < 511) :
    entries next w.m.mem a (indices virt) = entries next w.m.mem b (indices virt) ∧
      pageWord w.m.mem a virt = pageWord w.m.mem b virt := by
  have hword := hi.linked.agree a b _ ha hb h₁ h₂
  refine ⟨?_, ?_⟩
  · rw [indices, entries, entries, hword]
  · rw [pageWord, pageWord, lastTable, lookup, lookup, hword]

/-- After the kernel slots are initialised, all contexts that there are at any
time agree on every page of the kernel half: on each entry that is read on the
way to it, and on what `page::entry` finds. -/
theorem contexts_agree {w₀ : World} {m : Machine} {frames : List Nat} {ops : List Op} {k : Kernel}
    (hi : Inv w₀) (hctxs : w₀.ctxs = []) (hframes : frames.Subperm w₀.s.live)
    (hinit : initKernelPml4Entries w₀.m = some m) (hrun : run step ⟨m, [], frames⟩ ops = some k)
    (a b virt : Nat) (ha : a ∈ k.m.cr3 :: k.ctxs) (hb : b ∈ k.m.cr3 :: k.ctxs)
    (h₁ : 256 ≤ pml4Index virt) (h₂ : pml4Index virt ≤ 510) :
    entries next k.m.mem a (indices virt) = entries next k.m.mem b (indices virt) ∧
      pageWord k.m.mem a virt = pageWord k.m.mem b virt := by
  have hone : OneRoot w₀ := by
    intro r hr
    have h := hi.root r hr
    rw [hctxs] at h
    exact List.mem_singleton.mp h
  obtain ⟨w₁, rfl, hi₁, he₁, hfull⟩ := initKernelPml4Entries_spec hi hone hinit
  have hstart : Holds ⟨w₁.m, [], frames⟩ w₁ := by
    refine ⟨rfl, he₁.ctxs.trans hctxs, hi₁, hfull, ?_⟩
    rw [List.nil_append, he₁.live]
    exact hframes
  obtain ⟨w, h⟩ := invariant (I := fun k => ∃ w, Holds k w)
    (fun _ _ _ hk hs => by
      obtain ⟨w, h⟩ := hk
      obtain ⟨w', h', -⟩ := step_holds h hs
      exact ⟨w', h'⟩) ⟨w₁, hstart⟩ hrun
  have hroot : ∀ r ∈ k.m.cr3 :: k.ctxs, w.place r = some [] := by
    intro r hr
    rcases List.mem_cons.mp hr with rfl | hc
    · exact h.m ▸ h.inv.loaded
    · exact h.inv.ctx r (h.ctxs ▸ hc)
  rw [← h.m]
  exact h.inv.kernel_entries (hroot a ha) (hroot b hb) h₁ (by omega)

/-- There is nothing to do where every slot has its table. -/
theorem initKernelPml4Entries_full (hi : Inv w) (hf : Full w) :
    initKernelPml4Entries w.m = some w.m := by
  have hrun : ∀ is, (∀ i ∈ is, 256 ≤ i ∧ i < 511) →
      run initKernelPml4Entry w.m is = some w.m := by
    intro is his
    induction is with
    | nil => rfl
    | cons i is ih =>
      obtain ⟨h₁, h₂⟩ := his i List.mem_cons_self
      have hload := hi.load_eq (points_currentSlot (i := i) (by omega))
      rw [find, Option.map_some] at hload
      rw [run_cons, initKernelPml4Entry, ensureTable, hload, Option.bind_some,
        if_neg (hf i h₁ h₂)]
      exact ih fun j hj => his j (List.mem_cons_of_mem _ hj)
  exact hrun kernelSlots fun i hx => by
    have := List.mem_range'_1.mp hx
    omega

theorem bootFull : Full bootWorld := by
  intro i h₁ h₂
  change bootMem (slot 0x1000 i) ≠ 0
  rw [bootMem_kernelSlot h₁ h₂]
  omega

/-- A context is made and loaded, and a frame is mapped in the kernel half. -/
def bootOps : List Op :=
  [.newCtx, .currentCtx, .setCtx 0x1001000, .map 0x1000000 0xffff800000001000 3]

theorem contexts_agree_boot :
    ∃ k, run step ⟨bootWorld.m, [], [0x1000000]⟩ bootOps = some k ∧
      ∀ a b virt, a ∈ k.m.cr3 :: k.ctxs → b ∈ k.m.cr3 :: k.ctxs → 256 ≤ pml4Index virt →
        pml4Index virt ≤ 510 →
        entries next k.m.mem a (indices virt) = entries next k.m.mem b (indices virt) ∧
          pageWord k.m.mem a virt = pageWord k.m.mem b virt := by
  have hrun : (run step ⟨bootWorld.m, [], [0x1000000]⟩ bootOps).any (fun _ => true) = true := by
    decide +kernel
  obtain ⟨k, hk, -⟩ := exists_of_any hrun
  refine ⟨k, hk, fun a b virt ha hb h₁ h₂ => ?_⟩
  exact contexts_agree bootInv rfl (List.Subperm.refl _)
    (initKernelPml4Entries_full bootInv bootFull) hk a b virt ha hb h₁ h₂

end Crabos.Page
