import Crabos.Mem.PageSteps

/-!
# Page contexts

A new PML4 gets the kernel half of the loaded one, and it is a PML4 until its
last reference is dropped. What is said of contexts here needs that no slot of
the kernel half is missing: then no PML4 ever gets a new one.
-/
namespace Crabos.Page

open Crabos.Words Crabos.Radix Crabos.Interface Crabos.User Crabos.Run

variable {w w' : World}

/-- Every slot of the kernel has its table. -/
def Full (w : World) : Prop := ∀ i, 256 ≤ i → i < 511 → w.m.mem (slot w.m.cr3 i) ≠ 0

theorem Full.topReady (h : Full w) {virt : Nat} (hv : pml4Index virt < 511) : TopReady w virt :=
  fun h256 h0 => absurd h0 (h _ h256 hv)

theorem kernel_way {i : Nat} (h : i < 511) : Way ([] ++ [i]) := by
  refine ⟨by simp, ?_, ?_⟩
  · simp only [List.nil_append, List.mem_singleton, forall_eq]
    omega
  · simp only [List.nil_append, List.head?_cons, ne_eq, Option.some.injEq]
    omega

theorem Ext.full {h : Half} (he : Ext h w w') (hi : Inv w) (hf : Full w) : Full w' := by
  intro i h₁ h₂
  rcases hi.linked.child w.m.cr3 [] i hi.loaded (kernel_way h₂) with h0 | ⟨u, hu, -⟩
  · exact absurd h0 (hf i h₁ h₂)
  · rw [he.cr3, he.links _ [] i u hi.loaded (by decide) (by omega) hu]
    exact hf i h₁ h₂

theorem OneSlot.full {t i : Nat} {p : List Nat} (h : OneSlot w w' t i p) (hi : Inv w)
    (hf : Full w) : Full w' := by
  intro j h₁ h₂
  rw [h.cr3, h.links _ [] j hi.loaded (by decide) (by omega)]
  exact hf j h₁ h₂

theorem SameTables.full (h : SameTables w w') (hi : Inv w) (hcr3 : w'.m.cr3 = w.m.cr3)
    (hf : Full w) : Full w' := by
  intro i h₁ h₂
  rw [hcr3, h.mem _ [] i hi.loaded (by omega)]
  exact hf i h₁ h₂

/-- No frame that a page maps is a table. -/
def Clean (w : World) : Prop :=
  ∀ t i, (t, i) ∈ w.slots → w.place (frame (w.m.mem (slot t i))) = none

/-- What the kernel relies on between its calls: the temporary page stays free,
and frames that are in use for something else do not become tables. -/
structure Steady (w w' : World) : Prop where
  temp : TempFree w.m → TempFree w'.m
  tempPage : w'.m.tempPage = w.m.tempPage
  regions : w'.m.phys.regions = w.m.phys.regions
  clean : Clean w → Clean w'
  plain : ∀ f ∈ w.s.owners, w.place f = none → w'.place f = none

theorem SameTables.steady (h : SameTables w w') (hi : Inv w) (hcr3 : w'.m.cr3 = w.m.cr3) :
    Steady w w' where
  temp ht := by
    obtain ⟨t, hf, h0⟩ := ht
    have hl := hi.last hi.upper.2 hf
    refine ⟨t, ?_, ?_⟩
    · rw [hcr3, h.tempPage, h.find hi hi.loaded (way_lastTable hi.upper.2)]
      exact hf
    · rw [h.tempPage, h.mem t _ _ hl.1 hl.2.2]
      exact h0
  tempPage := h.tempPage
  regions := h.regions
  clean hc t i hm := by
    rw [h.slots] at hm
    obtain ⟨⟨p, hp, -, hlt⟩, -⟩ := (hi.mapped t i).mp hm
    rw [h.place, h.mem t p i hp hlt]
    exact hc t i hm
  plain f _ hn := by
    rw [h.place]
    exact hn

/-- The frame in a slot has an owner. -/
theorem Inv.leaf_owned (hi : Inv w) {t i : Nat} (hm : (t, i) ∈ w.slots) :
    frame (w.m.mem (slot t i)) ∈ w.s.owners :=
  List.mem_append_right _ (hi.leaf_mem_raws hm)

theorem Ext.steady {h : Half} (he : Ext h w w') (hi : Inv w) (hi' : Inv w') : Steady w w' where
  temp := he.tempFree hi hi'
  tempPage := he.tempPage
  regions := he.regions
  clean hc t i hm := by
    rw [he.slots] at hm
    obtain ⟨⟨p, hp, hlen, hlt⟩, -⟩ := (hi.mapped t i).mp hm
    rw [he.leaves t p i hp hlen hlt]
    exact (he.frames _ (hi.leaf_owned hm) (hc t i hm)).1
  plain f hf hn := (he.frames f hf hn).1

/-- The slot of another page than the temporary one changes, and it does not
map a table. -/
theorem OneSlot.steady {t i : Nat} {p : List Nat} (h : OneSlot w w' t i p) (hi : Inv w)
    (htemp : ¬ (lastTable w.m.tempPage = p ∧ pml1Index w.m.tempPage = i))
    (hslots : ∀ u j, (u, j) ∈ w'.slots → ¬ (u = t ∧ j = i) → (u, j) ∈ w.slots)
    (hself : Clean w → (t, i) ∈ w'.slots → w.place (frame (w'.m.mem (slot t i))) = none) :
    Steady w w' where
  temp ht := h.tempFree hi ht htemp
  tempPage := h.tempPage
  regions := h.regions
  clean hc u j hm := by
    rw [h.place]
    by_cases hslot : u = t ∧ j = i
    · obtain ⟨rfl, rfl⟩ := hslot
      exact hself hc hm
    · have hold := hslots u j hm hslot
      obtain ⟨⟨q, hq, -, hj⟩, -⟩ := (hi.mapped u j).mp hold
      rw [h.mem u q j hq hj hslot]
      exact hc u j hold
  plain f _ hn := by
    rw [h.place]
    exact hn

/-- One step after another; frames that get their first owner in between do not matter. -/
theorem Steady.trans {w₁ w₂ w₃ : World} (h₁ : Steady w₁ w₂) (h₂ : Steady w₂ w₃)
    (hown : ∀ f ∈ w₁.s.owners, w₂.place f = none → w₃.place f = none) : Steady w₁ w₃ where
  temp ht := h₂.temp (h₁.temp ht)
  tempPage := h₂.tempPage.trans h₁.tempPage
  regions := h₂.regions.trans h₁.regions
  clean hc := h₂.clean (h₁.clean hc)
  plain f hf hn := hown f hf (h₁.plain f hf hn)

/-! `init_kernel_pml4_entries` -/

/-- There is one PML4. -/
def OneRoot (w : World) : Prop := ∀ r, w.place r = some [] → r = w.m.cr3

theorem Ext.oneRoot {h : Half} (he : Ext h w w') (hr : OneRoot w) : OneRoot w' := by
  intro r hx
  rw [he.cr3]
  exact hr r (he.roots r hx)

theorem initKernelPml4Entry_spec (hi : Inv w) (hr : OneRoot w) {i : Nat} {m' : Machine}
    (h₂ : i < 511) (h : initKernelPml4Entry w.m i = some m') :
    ∃ w', w'.m = m' ∧ Inv w' ∧ Ext (half [i]) w w' ∧ w'.m.mem (slot w'.m.cr3 i) ≠ 0 := by
  obtain ⟨⟨ok, m₁⟩, h₁, h⟩ := Option.bind_eq_some_iff.mp h
  obtain ⟨w₁, rfl, hi₁, hext, hok⟩ := ensureTable_spec hi (points_currentSlot (by omega))
    (kernel_way h₂) rfl (fun _ _ _ => hr) h₁
  cases ok with
  | false => cases h
  | true =>
    cases h
    refine ⟨w₁, rfl, hi₁, hext, ?_⟩
    obtain ⟨u, hu⟩ := hok rfl
    rw [List.nil_append, find] at hu
    obtain ⟨v, hv, -⟩ := Option.bind_eq_some_iff.mp hu
    exact (next_some hv).1

/-- All slots that were passed have a table, and so has every later world. -/
theorem initKernelPml4Entries_run {is : List Nat} (hi : Inv w) (hr : OneRoot w) {m' : Machine}
    (his : ∀ i ∈ is, 256 ≤ i ∧ i < 511) (h : run initKernelPml4Entry w.m is = some m') :
    ∃ w', w'.m = m' ∧ Inv w' ∧ Ext .kernel w w' ∧ ∀ i ∈ is, w'.m.mem (slot w'.m.cr3 i) ≠ 0 := by
  induction is generalizing w with
  | nil =>
    cases h
    exact ⟨w, rfl, hi, .refl _ w, fun _ hx => absurd hx List.not_mem_nil⟩
  | cons i is ih =>
    rw [run_cons] at h
    obtain ⟨m₁, h₁, h⟩ := Option.bind_eq_some_iff.mp h
    obtain ⟨hge, hlt⟩ := his i List.mem_cons_self
    obtain ⟨w₁, rfl, hi₁, he₁, h0⟩ := initKernelPml4Entry_spec hi hr hlt h₁
    have hk : half [i] = .kernel := if_neg (by omega)
    rw [hk] at he₁
    obtain ⟨w₂, rfl, hi₂, he₂, hall⟩ := ih hi₁ (he₁.oneRoot hr)
      (fun j hj => his j (List.mem_cons_of_mem _ hj)) h
    refine ⟨w₂, rfl, hi₂, he₁.trans he₂, fun j hj => ?_⟩
    rcases List.mem_cons.mp hj with rfl | hj
    · rcases hi₁.linked.child w₁.m.cr3 [] j hi₁.loaded (kernel_way hlt) with hz | ⟨u, hu, -⟩
      · exact absurd hz h0
      · rw [he₂.cr3, he₂.links _ [] j u hi₁.loaded (by decide) (by omega) hu]
        exact h0
    · exact hall j hj

theorem initKernelPml4Entries_spec (hi : Inv w) (hr : OneRoot w) {m' : Machine}
    (h : initKernelPml4Entries w.m = some m') :
    ∃ w', w'.m = m' ∧ Inv w' ∧ Ext .kernel w w' ∧ Full w' := by
  obtain ⟨w', hm, hi', he, hall⟩ := initKernelPml4Entries_run hi hr
    (fun i hx => by have := List.mem_range'_1.mp hx; omega) h
  exact ⟨w', hm, hi', he, fun i h₁ h₂ => hall i (List.mem_range'_1.mpr ⟨h₁, h₂⟩)⟩

/-! References to contexts. -/

/-- One more reference to a PML4. -/
def World.share (w : World) (c : Nat) (q : Phys.PhysMem) : World :=
  { w with
    m := { w.m with phys := q }
    s := { w.s with p := q, live := c :: w.s.live }
    ctxs := c :: w.ctxs }

theorem new_spec (hi : Inv w) {c c' : Nat} {q : Phys.PhysMem} (hc : w.place c = some [])
    (h : Phys.new w.m.phys c = .ok (c', q)) :
    c' = c ∧ SameTables w (w.share c q) ∧ Inv (w.share c q) := by
  obtain ⟨free, hphys⟩ := hi.phys
  have hown := hi.owned hc
  rw [← hi.same] at h
  obtain ⟨rfl, rc, rfl, hrc⟩ := Phys.new_ok hphys.enabled (hphys.frame c hown).1 h
  have hsame : SameTables w (w.share c' { w.s.p with rc := rc }) := by
    refine ⟨rfl, rfl, rfl, ?_, rfl, fun t p i _ _ => ?_⟩
    · change w.s.p.regions = w.m.phys.regions
      rw [hi.same]
    · change w.s.p.mem (slot t i) = w.m.phys.mem (slot t i)
      rw [hi.same]
  refine ⟨rfl, hsame, ?_⟩
  refine hi.touch hsame rfl ⟨free, Phys.inv_clone hphys hown hrc⟩ rfl ?_ ?_ ?_ rfl
  · intro x hx
    rcases List.mem_cons.mp hx with rfl | hx
    · exact hc
    · exact hi.ctx x hx
  · exact fun x hx => List.mem_cons_of_mem _ hx
  · exact (List.subperm_cons c').mpr hi.held

/-- A context that is about to be dropped; its PML4 is one as long as another
context or `CR3` refers to it. -/
def World.forget (w : World) (c : Nat) : World :=
  { w with
    place := fun t => if t = c ∧ c ∉ w.m.cr3 :: w.ctxs.erase c then none else w.place t
    ctxs := w.ctxs.erase c }

theorem forget_place {c t : Nat} {p : List Nat} (h : (w.forget c).place t = some p) :
    w.place t = some p := by
  simp only [World.forget] at h
  split at h
  · cases h
  · exact h

theorem forget_keeps {c t : Nat} {p : List Nat} (h : w.place t = some p)
    (hne : t = c → c ∈ w.m.cr3 :: w.ctxs.erase c) : (w.forget c).place t = some p := by
  simp only [World.forget]
  rw [if_neg]
  · exact h
  · rintro ⟨rfl, hx⟩
    exact hx (hne rfl)

theorem Inv.forget (hi : Inv w) {c : Nat} (hc : c ∈ w.ctxs) : Inv (w.forget c) := by
  have hroot := hi.ctx c hc
  have hlower : ∀ t p, w.place t = some p → p ≠ [] → (w.forget c).place t = some p := by
    intro t p ht hp
    refine forget_keeps ht ?_
    rintro rfl
    exact absurd (Option.some.inj (ht.symm.trans hroot)) hp
  exact
    { same := hi.same
      phys := hi.phys
      aligned := hi.aligned
      bounded := hi.bounded
      upper := hi.upper
      linked :=
        { way := fun t p ht => hi.linked.way t p (forget_place ht)
          child := fun t p i ht hw => by
            rcases hi.linked.child t p i (forget_place ht) hw with h0 | ⟨u, hu, hpu⟩
            · exact .inl h0
            · exact .inr ⟨u, hu, hlower u _ hpu (by simp)⟩
          self := fun t ht => hi.linked.self t (forget_place ht)
          agree := fun t u i ht hu =>
            hi.linked.agree t u i (forget_place ht) (forget_place hu) }
      loaded := forget_keeps hi.loaded fun he => he ▸ List.mem_cons_self
      root := fun r hr => by
        rcases List.mem_cons.mp (hi.root r (forget_place hr)) with rfl | hx
        · exact List.mem_cons_self
        · by_cases hrc : r = c
          · subst hrc
            simp only [World.forget] at hr
            split at hr
            · cases hr
            · rename_i hn
              exact not_not.mp fun hx => hn ⟨trivial, hx⟩
          · exact List.mem_cons_of_mem _ ((List.mem_erase_of_ne hrc).mpr hx)
      ctx := fun x hx => forget_keeps (hi.ctx x (List.mem_of_mem_erase hx))
        fun he => List.mem_cons_of_mem _ (he ▸ hx)
      table := fun t p ht hp => hi.table t p (forget_place ht) hp
      once := hi.once
      mapped := fun t i => by
        rw [show (w.forget c).slots = w.slots from rfl, hi.mapped t i]
        refine and_congr_left fun _ => ⟨?_, ?_⟩
        · rintro ⟨p, hp, hl⟩
          refine ⟨p, hlower t p hp ?_, hl⟩
          rintro rfl
          cases hl.1
        · rintro ⟨p, hp, hl⟩
          exact ⟨p, forget_place hp, hl⟩
      held := (List.erase_subperm c w.ctxs).trans hi.held
      backed := hi.backed }

theorem Inv.forget_loose (hi : Inv w) {c : Nat} (hc : c ∈ w.ctxs) : Loose (w.forget c) c :=
  ⟨hi.held.subset hc, hi.held.erase c⟩

/-- The drop of a `PageCtx`. -/
theorem dropCtx_spec (hi : Inv w) {c : Nat} {m' : Machine} (hc : c ∈ w.ctxs)
    (h : drop w.m c = some m') :
    ∃ p, m' = ((w.forget c).dropped c p).m ∧ Dropped (w.forget c) w.s c p ∧
      Inv ((w.forget c).dropped c p) := by
  have hl := hi.forget_loose hc
  obtain ⟨p, rfl, hd⟩ := drop_spec (hi.forget hc) (hl.dropping (hi.forget hc)) h
  exact ⟨p, rfl, hd, hd.inv (hi.forget hc) hl⟩

/-! `set_ctx` -/

/-- The context is in `CR3`, and the old one is held in its place. -/
def World.switch (w : World) (c : Nat) : World :=
  { w with
    m := { w.m with cr3 := c }
    s := { w.s with live := w.m.cr3 :: w.s.live.erase c, raws := (c :: w.s.raws).erase w.m.cr3 }
    ctxs := w.m.cr3 :: w.ctxs.erase c }

theorem Inv.switch (hi : Inv w) {c : Nat} (hc : c ∈ w.ctxs) : Inv (w.switch c) where
  same := hi.same
  phys := by
    obtain ⟨free, hphys⟩ := hi.phys
    have hraw := Phys.inv_intoRaw hphys (hi.held.subset hc)
    exact ⟨free, Phys.inv_fromRaw hraw
      (List.mem_cons_of_mem _ (hi.backed.subset List.mem_cons_self))⟩
  aligned := hi.aligned
  bounded := hi.bounded
  upper := hi.upper
  linked := hi.linked
  loaded := hi.ctx c hc
  root r hr := by
    change r ∈ c :: w.m.cr3 :: w.ctxs.erase c
    by_cases hrc : r = c
    · exact hrc ▸ List.mem_cons_self
    · refine List.mem_cons_of_mem _ ?_
      rcases List.mem_cons.mp (hi.root r hr) with rfl | hx
      · exact List.mem_cons_self
      · exact List.mem_cons_of_mem _ ((List.mem_erase_of_ne hrc).mpr hx)
  ctx x hx := by
    rcases List.mem_cons.mp hx with rfl | hx
    · exact hi.loaded
    · exact hi.ctx x (List.mem_of_mem_erase hx)
  table := hi.table
  once := hi.once
  mapped := hi.mapped
  held := (List.subperm_cons _).mpr (hi.held.erase c)
  backed := by
    change (c :: (w.tables ++ leafFrames w.m.mem w.slots)).Subperm ((c :: w.s.raws).erase w.m.cr3)
    have hcons : (w.m.cr3 :: c :: (w.tables ++ leafFrames w.m.mem w.slots)).Subperm
        (c :: w.s.raws) :=
      (List.Perm.swap _ _ _).subperm_right.mp ((List.subperm_cons c).mpr hi.backed)
    have h := hcons.erase w.m.cr3
    rwa [List.erase_cons_head] at h

theorem Inv.switch_owners (hi : Inv w) {c : Nat} (hc : c ∈ w.ctxs) :
    (w.switch c).s.owners.Perm w.s.owners := by
  have hcr3 : w.m.cr3 ∈ c :: w.s.raws :=
    List.mem_cons_of_mem _ (hi.backed.subset List.mem_cons_self)
  exact (Phys.perm_fromRaw _ hcr3).trans (Phys.perm_intoRaw w.s.raws (hi.held.subset hc))

theorem SameTables.refl (w : World) : SameTables w w :=
  ⟨rfl, rfl, rfl, rfl, rfl, fun _ _ _ _ _ => rfl⟩

/-! `PageCtx::new` -/

/-- The words at the indices were copied from the loaded PML4 to the frame. -/
structure Copied (m : Machine) (f : Nat) (is : List Nat) (m' : Machine) : Prop where
  same : m' = m.setMem m'.mem
  copied : ∀ i ∈ is, m'.mem (slot f i) = m.mem (slot m.cr3 i)
  rest : ∀ j, j < 512 → j ∉ is → m'.mem (slot f j) = m.mem (slot f j)
  outside : ∀ a, ¬ (f ≤ a ∧ a < f + PAGE_SIZE) → m'.mem a = m.mem a

theorem run_copySlot {m m' : Machine} {f : Nat} {is : List Nat} (hf : PAGE_SIZE ∣ f)
    (hc : PAGE_SIZE ∣ m.cr3) (hne : m.cr3 ≠ f) (hself : next (m.mem (slot m.cr3 511)) = some m.cr3)
    (his : ∀ i ∈ is, i < 512) (h : run (copySlot f) m is = some m') : Copied m f is m' := by
  induction is generalizing m with
  | nil =>
    cases h
    exact ⟨rfl, fun _ hx => absurd hx List.not_mem_nil, fun _ _ _ => rfl, fun _ _ => rfl⟩
  | cons i is ih =>
    have hi : i < 512 := his i List.mem_cons_self
    have hcr3 : ∀ j, j < 512 → ¬ (f ≤ slot m.cr3 j ∧ slot m.cr3 j < f + PAGE_SIZE) := fun j hj =>
      Phys.frame_apart hf hc hne (slot_in_frame hj).1 (slot_in_frame hj).2
    rw [run_cons, copySlot, load_points hself (points_currentSlot hi)] at h
    simp only [find, Option.map_some, Option.bind_some] at h
    have hout : ∀ a, ¬ (f ≤ a ∧ a < f + PAGE_SIZE) →
        Function.update m.mem (slot f i) (m.mem (slot m.cr3 i)) a = m.mem a := by
      intro a ha
      refine Function.update_of_ne ?_ _ _
      rintro rfl
      exact ha (slot_in_frame hi)
    have hrec := ih (m := m.setMem (Function.update m.mem (slot f i) (m.mem (slot m.cr3 i)))) hc hne (by
      change next (Function.update m.mem (slot f i) (m.mem (slot m.cr3 i)) (slot m.cr3 511)) = _
      rw [hout _ (hcr3 511 (by decide))]
      exact hself) (fun j hj => his j (List.mem_cons_of_mem _ hj)) h
    refine ⟨hrec.same, fun j hj => ?_, fun j hj hnot => ?_, fun a ha => ?_⟩
    · by_cases hjs : j ∈ is
      · rw [hrec.copied j hjs]
        exact hout _ (hcr3 j (his j (List.mem_cons_of_mem _ hjs)))
      · rcases List.mem_cons.mp hj with rfl | hx
        · rw [hrec.rest j hi hjs]
          exact Function.update_self _ _ _
        · exact absurd hx hjs
    · rw [hrec.rest j hj fun hx => hnot (List.mem_cons_of_mem _ hx)]
      refine Function.update_of_ne ?_ _ _
      intro he
      have hji := (Radix.slot_inj (show PAGE_SIZE = 8 * 512 from rfl) hf hf hj hi he).2
      exact hnot (hji ▸ List.mem_cons_self)
    · rw [hrec.outside a ha]
      exact hout a ha

/-- The frame has become a PML4. -/
def World.root (w : World) (f : Nat) (mem : Mem) : World :=
  { w with
    m := w.m.setMem mem
    s := { w.s with p := { w.s.p with mem := mem } }
    place := Function.update w.place f (some [])
    ctxs := f :: w.ctxs }

/-- A frame with the contents of a PML4: the kernel half of the loaded one, and
the entry that leads back. -/
structure NewRoot (w : World) (f : Nat) (mem : Mem) : Prop where
  fresh : w.place f = none
  aligned : PAGE_SIZE ∣ f
  held : (f :: w.ctxs).Subperm w.s.live
  user : ∀ i, i < 256 → mem (slot f i) = 0
  kernel : ∀ i, 256 ≤ i → i < 511 → mem (slot f i) = w.m.mem (slot w.m.cr3 i)
  self : next (mem (slot f 511)) = some f
  outside : ∀ a, ¬ (f ≤ a ∧ a < f + PAGE_SIZE) → mem a = w.m.mem a

section newRoot

variable {f : Nat} {mem : Mem}

theorem NewRoot.old (h : NewRoot w f mem) {t : Nat} {p : List Nat} (ht : w.place t = some p) :
    (w.root f mem).place t = some p := by
  have hne : t ≠ f := by
    rintro rfl
    rw [h.fresh] at ht
    cases ht
  exact (Function.update_of_ne hne _ _).trans ht

theorem NewRoot.cases (h : NewRoot w f mem) {t : Nat} {p : List Nat}
    (ht : (w.root f mem).place t = some p) : (t = f ∧ p = []) ∨ w.place t = some p := by
  by_cases hne : t = f
  · subst hne
    simp only [World.root, Function.update_self] at ht
    cases ht
    exact .inl ⟨rfl, rfl⟩
  · simp only [World.root, Function.update_of_ne hne] at ht
    exact .inr ht

theorem NewRoot.other (h : NewRoot w f mem) (hi : Inv w) {t i : Nat} {p : List Nat}
    (ht : w.place t = some p) (hlt : i < 512) : mem (slot t i) = w.m.mem (slot t i) :=
  h.outside _ (hi.slot_outside h.aligned h.fresh ht hlt)

theorem NewRoot.linked (h : NewRoot w f mem) (hi : Inv w) : Linked (w.root f mem).place mem where
  way t p ht := by
    rcases h.cases ht with ⟨-, rfl⟩ | ht
    · exact ⟨by simp, by simp, by simp⟩
    · exact hi.linked.way t p ht
  child t p i ht hw := by
    rcases h.cases ht with ⟨rfl, rfl⟩ | hold
    · by_cases h256 : i < 256
      · exact .inl (h.user i h256)
      · have hlt : i < 511 := by
          have h₁ := (way_snoc hw).2
          have h₂ : i ≠ 511 := by
            rintro rfl
            exact hw.2.2 rfl
          omega
        rw [h.kernel i (by omega) hlt]
        rcases hi.linked.child w.m.cr3 [] i hi.loaded hw with h0 | ⟨u, hu, hpu⟩
        · exact .inl h0
        · exact .inr ⟨u, hu, h.old hpu⟩
    · rw [h.other hi hold (way_snoc hw).2]
      rcases hi.linked.child t p i hold hw with h0 | ⟨u, hu, hpu⟩
      · exact .inl h0
      · exact .inr ⟨u, hu, h.old hpu⟩
  self t ht := by
    rcases h.cases ht with ⟨rfl, -⟩ | hold
    · exact h.self
    · rw [h.other hi hold (by decide)]
      exact hi.linked.self t hold
  agree t u i ht hu h₁ h₂ := by
    have hcopy : ∀ r, (w.root f mem).place r = some [] →
        mem (slot r i) = w.m.mem (slot w.m.cr3 i) := by
      intro r hr
      rcases h.cases hr with ⟨rfl, -⟩ | hold
      · exact h.kernel i h₁ h₂
      · rw [h.other hi hold (by omega)]
        exact hi.linked.agree r w.m.cr3 i hold hi.loaded h₁ h₂
    rw [hcopy t ht, hcopy u hu]

theorem NewRoot.inv (h : NewRoot w f mem) (hi : Inv w) (hphys : ∃ free, Phys.Inv (w.root f mem).s free) :
    Inv (w.root f mem) where
  same := by
    simp only [World.root, Machine.setMem, hi.same]
  phys := hphys
  aligned := hi.aligned
  bounded := hi.bounded
  upper := hi.upper
  linked := h.linked hi
  loaded := h.old hi.loaded
  root r hr := by
    change r ∈ w.m.cr3 :: f :: w.ctxs
    rcases h.cases hr with ⟨rfl, -⟩ | hr
    · simp
    · rcases List.mem_cons.mp (hi.root r hr) with rfl | hx
      · exact List.mem_cons_self
      · exact List.mem_cons_of_mem _ (List.mem_cons_of_mem _ hx)
  ctx c hc := by
    rcases List.mem_cons.mp hc with rfl | hc
    · exact Function.update_self _ _ _
    · exact h.old (hi.ctx c hc)
  table t p ht hp := by
    rcases h.cases ht with ⟨-, rfl⟩ | ht
    · exact absurd rfl hp
    · exact hi.table t p ht hp
  once := hi.once
  mapped t i := by
    refine (hi.mapped t i).trans ⟨?_, ?_⟩
    · rintro ⟨⟨p, hp, hl, hlt⟩, hm⟩
      refine ⟨⟨p, h.old hp, hl, hlt⟩, ?_⟩
      change Maps w.m.phys.regions (mem (slot t i))
      rw [h.other hi hp hlt]
      exact hm
    · rintro ⟨⟨p, hp, hl, hlt⟩, hm⟩
      rcases h.cases hp with ⟨-, rfl⟩ | hp
      · cases hl
      · change Maps w.m.phys.regions (mem (slot t i)) at hm
        rw [h.other hi hp hlt] at hm
        exact ⟨⟨p, hp, hl, hlt⟩, hm⟩
  held := h.held
  backed := by
    have hleaf : leafFrames mem w.slots = leafFrames w.m.mem w.slots := by
      refine leafFrames_congr fun t i hm => ?_
      obtain ⟨⟨p, hp, -, hlt⟩, -⟩ := (hi.mapped t i).mp hm
      exact h.other hi hp hlt
    change (w.m.cr3 :: (w.tables ++ leafFrames mem w.slots)).Subperm w.s.raws
    rw [hleaf]
    exact hi.backed

end newRoot

theorem next_present {f : Nat} (hf : PAGE_SIZE ∣ f) :
    next (f ||| PageFlags.PRESENT) = some f := next_or hf (by decide) (by decide)

/-- A new root is another one than that in use, and gets the entries of the kernel from it. -/
theorem Handed.copied {f : Nat} {q : Phys.PhysMem} {m' : Machine} (hi : Inv w) (h : Handed w f q)
    (hcopy : run (copySlot f) (w.hand f q).m kernelSlots = some m') :
    (w.hand f q).place f = none ∧ Copied (w.hand f q).m f kernelSlots m' := by
  have hroot : (w.hand f q).place (w.hand f q).m.cr3 = some [] := hi.loaded
  have hfresh : (w.hand f q).place f = none := hi.unowned_no_table h.unowned
  have hne : w.m.cr3 ≠ f := by
    intro he
    rw [← he] at hfresh
    exact absurd (hfresh.symm.trans hi.loaded) (by simp)
  refine ⟨hfresh, run_copySlot h.aligned (h.inv.table_aligned hroot) hne
    (h.inv.linked.self _ hroot) ?_ hcopy⟩
  intro i hx
  have := List.mem_range'_1.mp hx
  omega

theorem newCtx_spec (hi : Inv w) {x : Option Nat} {m' : Machine} (h : newCtx w.m = some (x, m')) :
    (x = none ∧ m' = w.m) ∨
    ∃ f q mem, x = some f ∧ m' = ((w.hand f q).root f mem).m ∧ Handed w f q ∧
      NewRoot (w.hand f q) f mem ∧ Inv ((w.hand f q).root f mem) := by
  obtain ⟨⟨y, m₁⟩, ha, h⟩ := Option.bind_eq_some_iff.mp h
  rcases alloc_spec hi ha with ⟨rfl, rfl⟩ | ⟨f, q, rfl, rfl, hh⟩
  · cases h
    exact .inl ⟨rfl, rfl⟩
  · obtain ⟨m₂, hcopy, h⟩ := Option.bind_eq_some_iff.mp h
    obtain ⟨m₃, hvia, h⟩ := Option.map_eq_some_iff.mp h
    cases h
    have hroot : (w.hand f q).place (w.hand f q).m.cr3 = some [] := hi.loaded
    obtain ⟨hfresh, hcop⟩ := hh.copied hi hcopy
    have h511 : (511 : Nat) ∉ kernelSlots := fun hx => by
      have := List.mem_range'_1.mp hx
      omega
    have hlast : ∀ a, a ≠ slot f 511 →
        Function.update m₂.mem (slot f 511) (f ||| PageFlags.PRESENT) a = m₂.mem a :=
      fun a ha => Function.update_of_ne ha _ _
    have hslot : ∀ i, i < 511 → slot f i ≠ slot f 511 := fun i hlt he => by
      simp only [slot] at he
      omega
    have hnew : NewRoot (w.hand f q) f
        (Function.update m₂.mem (slot f 511) (f ||| PageFlags.PRESENT)) :=
      { fresh := hfresh
        aligned := hh.aligned
        held := (List.subperm_cons f).mpr hi.held
        user := fun i h256 => by
          rw [hlast _ (hslot i (by omega)), hcop.rest i (by omega)
            (fun hx => by have := List.mem_range'_1.mp hx; omega)]
          exact hh.zero _ (slot_in_frame (by omega)).1 (slot_in_frame (by omega)).2
        kernel := fun i h₁ h₂ => by
          rw [hlast _ (hslot i h₂)]
          exact hcop.copied i (List.mem_range'_1.mpr ⟨h₁, h₂⟩)
        self := by
          rw [Function.update_self]
          exact next_present hh.aligned
        outside := fun a ha => by
          rw [hlast a (fun he => ha (he ▸ slot_in_frame (by decide)))]
          exact hcop.outside a ha }
    have hphys : m₂.phys = { q with mem := m₂.mem } := congrArg Machine.phys hcop.same
    rw [hphys] at hvia
    change viaTemp (w.hand f q).m _ = some m' at hvia
    obtain ⟨-, rfl⟩ := (hh.inv.viaTemp_iff fun t ht =>
      hnew.other hh.inv ht (pml1Index_lt _)).mp hvia
    refine .inr ⟨f, q, _, rfl, rfl, hh, hnew, hnew.inv hh.inv ?_⟩
    obtain ⟨free, hfree⟩ := hh.inv.phys
    refine ⟨free, Phys.inv_contents hfree (List.mem_append_left _ List.mem_cons_self) ?_⟩
    exact hnew.outside

/-! What all of these leave as it was. -/

theorem forget_steady (w : World) (c : Nat) : Steady w (w.forget c) where
  temp ht := ht
  tempPage := rfl
  regions := rfl
  clean hc t i hm := by
    have hn := hc t i hm
    cases hp : (w.forget c).place (frame (w.m.mem (slot t i))) with
    | none => exact hp
    | some p =>
      rw [forget_place hp] at hn
      cases hn
  plain f _ hn := by
    cases hp : (w.forget c).place f with
    | none => rfl
    | some p =>
      rw [forget_place hp] at hn
      cases hn

theorem dropCtx_steady (hi : Inv w) {c : Nat} {p : Phys.PhysMem} (hc : c ∈ w.ctxs)
    (hd : Dropped (w.forget c) w.s c p) : Steady w ((w.forget c).dropped c p) :=
  (forget_steady w c).trans
    ((Dropped.sameTables (w := w.forget c) hd).steady (hi.forget hc) rfl) fun _ _ hn => hn

theorem Inv.switch_steady (hi : Inv w) {c : Nat} (hc : c ∈ w.ctxs) : Steady w (w.switch c) where
  temp ht := by
    obtain ⟨t, hf, h0⟩ := ht
    refine ⟨t, ?_, h0⟩
    rw [← hf]
    change find next w.m.mem c (lastTable w.m.tempPage) =
      find next w.m.mem w.m.cr3 (lastTable w.m.tempPage)
    rw [lastTable, find, find, hi.linked.agree c w.m.cr3 _ (hi.ctx c hc) hi.loaded hi.upper.1 hi.upper.2]
  tempPage := rfl
  regions := rfl
  clean hc := hc
  plain _ _ hn := hn

theorem newCtx_steady (hi : Inv w) {f : Nat} {q : Phys.PhysMem} {mem : Mem} (hh : Handed w f q)
    (hnew : NewRoot (w.hand f q) f mem) : Steady w ((w.hand f q).root f mem) where
  temp ht := by
    obtain ⟨t, hf, h0⟩ := ((hh.sameTables hi).steady hi rfl).temp ht
    have hl := hh.inv.last hi.upper.2 hf
    refine ⟨t, ?_, ?_⟩
    · rw [← hf]
      exact hh.inv.linked.placed.find_congr
        (fun u p i hu hwi => hnew.other hh.inv hu (way_snoc hwi).2) hi.loaded
        (way_lastTable hi.upper.2)
    · exact (hnew.other hh.inv hl.1 hl.2.2).trans h0
  tempPage := rfl
  regions := hh.regions
  clean hc t i hm := by
    obtain ⟨⟨p, hp, -, hlt⟩, -⟩ := (hi.mapped t i).mp hm
    have hword : mem (slot t i) = w.m.mem (slot t i) :=
      (hnew.other hh.inv (t := t) hp hlt).trans (hh.mem hi t p i hp hlt)
    change Function.update w.place f (some []) (frame (mem (slot t i))) = none
    rw [hword, Function.update_of_ne]
    · exact hc t i hm
    · intro he
      exact hh.unowned (he ▸ hi.leaf_owned hm)
  plain g hg hn := by
    refine (Function.update_of_ne ?_ _ _).trans hn
    rintro rfl
    exact hh.unowned hg

end Crabos.Page
