import Crabos.Mem.PageInv

/-!
# What the page functions keep

One lemma for each function of `page.rs`: the tables stay well formed, and
which entries of pages change is said exactly.
-/
namespace Crabos.Page

open Crabos.Words Crabos.Radix Crabos.Interface Crabos.User Crabos.Run

variable {w w' : World}

theorem load_points {m : Machine} (hself : next (m.mem (slot m.cr3 511)) = some m.cr3)
    {ent i : Nat} {is : List Nat} (hp : Points ent is i) :
    load m ent = (find next m.mem m.cr3 is).map fun t => m.mem (slot t i) := by
  rw [load, hp _ _ hself, Option.map_map]
  rfl

theorem store_points {m : Machine} (hself : next (m.mem (slot m.cr3 511)) = some m.cr3)
    {ent i : Nat} {is : List Nat} (hp : Points ent is i) (v : Nat) :
    store m ent v = (find next m.mem m.cr3 is).map fun t =>
      m.setMem (Function.update m.mem (slot t i) v) := by
  rw [store, hp _ _ hself, Option.map_map]
  rfl

theorem Inv.load_eq (hi : Inv w) {ent i : Nat} {is : List Nat} (hp : Points ent is i) :
    load w.m ent = (find next w.m.mem w.m.cr3 is).map fun t => w.m.mem (slot t i) :=
  load_points (hi.linked.self _ hi.loaded) hp

theorem Inv.store_eq (hi : Inv w) {ent i : Nat} {is : List Nat} (hp : Points ent is i) (v : Nat) :
    store w.m ent v = (find next w.m.mem w.m.cr3 is).map fun t =>
      w.m.setMem (Function.update w.m.mem (slot t i) v) :=
  store_points (hi.linked.self _ hi.loaded) hp v

/-! Frames. -/

/-- The temporary page has its last entry, and it is empty. -/
def TempFree (m : Machine) : Prop :=
  ∃ t, find next m.mem m.cr3 (lastTable m.tempPage) = some t ∧
    m.mem (slot t (pml1Index m.tempPage)) = 0

/-- The temporary page is free before and after each use. -/
theorem Inv.viaTemp_iff (hi : Inv w) {p : Phys.PhysMem} {m' : Machine}
    (hp : ∀ t, w.place t = some (lastTable w.m.tempPage) →
      p.mem (slot t (pml1Index w.m.tempPage)) = w.m.mem (slot t (pml1Index w.m.tempPage))) :
    viaTemp w.m p = some m' ↔ TempFree w.m ∧ m' = { w.m with phys := p } := by
  have hwalk := points_pml1Entry w.m.tempPage w.m.mem w.m.cr3 (hi.linked.self _ hi.loaded)
  rw [viaTemp, hwalk, TempFree, lastTable]
  cases hf : find next w.m.mem w.m.cr3
      [pml4Index w.m.tempPage, pml3Index w.m.tempPage, pml2Index w.m.tempPage] with
  | none => simp
  | some t =>
    have ht := hp t (hi.linked.place_last hi.loaded hi.upper.2 hf)
    by_cases h0 : w.m.mem (slot t (pml1Index w.m.tempPage)) = 0
    · have hupd : Function.update p.mem (slot t (pml1Index w.m.tempPage)) 0 = p.mem := by
        rw [← h0, ← ht]
        exact Function.update_eq_self _ _
      simp [h0, hupd, eq_comm]
    · simp [h0]

/-- A caller now holds a `Phys` for the frame. -/
def World.hand (w : World) (f : Nat) (q : Phys.PhysMem) : World :=
  { w with m := { w.m with phys := q }, s := w.s.hand f q }

/-- What a successful allocation gives: a frame without owners, cleared. -/
structure Handed (w : World) (f : Nat) (q : Phys.PhysMem) : Prop where
  inv : Inv (w.hand f q)
  aligned : PAGE_SIZE ∣ f
  unowned : f ∉ w.s.owners
  managed : Phys.Managed w.m.phys.regions f
  regions : q.regions = w.m.phys.regions
  zero : ∀ a, f ≤ a → a < f + PAGE_SIZE → q.mem a = 0
  outside : ∀ a, ¬ (f ≤ a ∧ a < f + PAGE_SIZE) → q.mem a = w.m.mem a

theorem Handed.mem {f : Nat} {q : Phys.PhysMem} (h : Handed w f q) (hi : Inv w) (t : Nat)
    (p : List Nat) (i : Nat) (ht : w.place t = some p) (hlt : i < 512) :
    q.mem (slot t i) = w.m.mem (slot t i) :=
  h.outside _ (hi.slot_outside h.aligned (hi.unowned_no_table h.unowned) ht hlt)

theorem alloc_spec (hi : Inv w) {x : Option Nat} {m' : Machine} (h : alloc w.m = some (x, m')) :
    (x = none ∧ m' = w.m) ∨
    ∃ f q, x = some f ∧ m' = { w.m with phys := q } ∧ Handed w f q := by
  obtain ⟨free, hphys⟩ := hi.phys
  rw [alloc] at h
  rcases Phys.alloc_cases hphys with ⟨e, ha, -⟩ | ⟨ha, -, -⟩ | ⟨f, q, rest, ha, ho, hz, hinv⟩
  · rw [hi.same] at ha
    rw [ha] at h
    cases h
  · rw [hi.same] at ha
    rw [ha] at h
    cases h
    exact .inl ⟨rfl, rfl⟩
  · have hf : PAGE_SIZE ∣ f := (hinv.frame f (List.mem_append_left _ List.mem_cons_self)).1
    rw [hi.same] at ha
    obtain ⟨hreg, hout⟩ := Phys.alloc_outside ha
    have hmem : ∀ t p i, w.place t = some p → i < 512 → q.mem (slot t i) = w.m.mem (slot t i) :=
      fun t p i ht hlt => hout _ (hi.slot_outside hf (hi.unowned_no_table ho) ht hlt)
    rw [ha] at h
    obtain ⟨m₁, hvia, hm⟩ := Option.map_eq_some_iff.mp h
    cases hm
    obtain ⟨-, rfl⟩ := (hi.viaTemp_iff fun t ht => hmem t _ _ ht (pml1Index_lt _)).mp hvia
    have hman : Phys.Managed w.m.phys.regions f := by
      rw [← hi.same] at ha ⊢
      exact Phys.alloc_managed hphys ha
    refine .inr ⟨f, q, rfl, rfl, ?_, hf, ho, hman, hreg, hz, hout⟩
    exact hi.touch ⟨rfl, rfl, rfl, hreg, rfl, hmem⟩ rfl ⟨rest, hinv⟩ rfl hi.ctx
      (fun _ hc => hc) (hi.held.cons_right f) rfl

/-- An allocation does not panic while the temporary page is free. -/
theorem alloc_total (hi : Inv w) (ht : TempFree w.m) : ∃ x m', alloc w.m = some (x, m') := by
  obtain ⟨free, hphys⟩ := hi.phys
  rw [alloc]
  rcases Phys.alloc_cases hphys with ⟨e, -, -, f, hf, hm, hmax⟩ | ⟨ha, -, -⟩ |
    ⟨f, q, rest, ha, ho, -, hinv⟩
  · rw [hi.same] at hm
    exact absurd (hi.bounded f hf hm) (Nat.not_le.mpr hmax)
  · rw [hi.same] at ha
    rw [ha]
    exact ⟨_, _, rfl⟩
  · have hf : PAGE_SIZE ∣ f := (hinv.frame f (List.mem_append_left _ List.mem_cons_self)).1
    rw [hi.same] at ha
    obtain ⟨hreg, hout⟩ := Phys.alloc_outside ha
    have hvia : viaTemp w.m q = some { w.m with phys := q } :=
      (hi.viaTemp_iff fun t ht => hout _ (hi.slot_outside hf (hi.unowned_no_table ho) ht
        (pml1Index_lt _))).mpr ⟨ht, rfl⟩
    simp only [ha, hvia]
    exact ⟨_, _, rfl⟩

/-- What the drop of an owner does to memory. -/
structure Dropped (w : World) (s : Phys.State) (f : Nat) (p : Phys.PhysMem) : Prop where
  phys : ∃ free, Phys.Inv (s.dropped f p) free
  regions : p.regions = w.m.phys.regions
  mem : ∀ t q i, w.place t = some q → i < 512 → p.mem (slot t i) = w.m.mem (slot t i)
  outside : ∀ a, ¬ (f ≤ a ∧ a < f + PAGE_SIZE) → p.mem a = w.m.mem a
  shared : f ∈ s.live.erase f ++ s.raws → p.mem = w.m.mem

/-- The owners while one of them is dropped: each table has another one. -/
structure Dropping (w : World) (s : Phys.State) (f : Nat) : Prop where
  same : s.p = w.m.phys
  phys : ∃ free, Phys.Inv s free
  live : f ∈ s.live
  owned : ∀ t p, w.place t = some p → t ∈ s.live.erase f ++ s.raws

theorem Dropping.dropped {s : Phys.State} {f : Nat} {p : Phys.PhysMem} (hd : Dropping w s f)
    (hi : Inv w) (h : Phys.drop w.m.phys f = .ok p) : Dropped w s f p := by
  obtain ⟨free, hphys⟩ := hd.phys
  have ha : PAGE_SIZE ∣ f := (hphys.frame f (List.mem_append_left _ hd.live)).1
  obtain ⟨hreg, hout⟩ := Phys.drop_outside h
  rw [← hd.same] at h
  have hshared : f ∈ s.live.erase f ++ s.raws → p.mem = w.m.mem := by
    intro hown
    rw [Phys.drop_shared hphys hd.live hown h, hd.same]
    rfl
  refine ⟨Phys.inv_dropped hphys hd.live h, hreg, ?_, hout, hshared⟩
  intro t q i ht hlt
  cases hp : w.place f with
  | none => exact hout _ (hi.slot_outside ha hp ht hlt)
  | some q' => rw [hshared (hd.owned f q' hp)]

theorem drop_spec (hi : Inv w) {s : Phys.State} {f : Nat} {m' : Machine} (hd : Dropping w s f)
    (h : drop w.m f = some m') : ∃ p, m' = { w.m with phys := p } ∧ Dropped w s f p := by
  rw [drop] at h
  split at h
  · rename_i p _ hp
    cases h
    exact ⟨p, rfl, hd.dropped hi hp⟩
  · rename_i p _ hp
    have hdr := hd.dropped hi hp
    obtain ⟨-, rfl⟩ := (hi.viaTemp_iff fun t ht => hdr.mem t _ _ ht (pml1Index_lt _)).mp h
    exact ⟨p, rfl, hdr⟩
  · cases h

/-- An owner can be dropped while the temporary page is free. -/
theorem drop_total (hi : Inv w) {s : Phys.State} {f : Nat} (ht : TempFree w.m)
    (hd : Dropping w s f) : ∃ m', drop w.m f = some m' := by
  obtain ⟨free, hphys⟩ := hd.phys
  rcases Phys.exec_drop hphys hd.live with ⟨e, -, -, g, hg, hm, hmax⟩ | ⟨s', free', he, -⟩
  · rw [hd.same] at hm
    exact absurd (hi.bounded g hg hm) (Nat.not_le.mpr hmax)
  · rw [Phys.exec, hd.same] at he
    cases hp : Phys.drop w.m.phys f with
    | error e =>
      rw [hp] at he
      cases he
    | ok p =>
      have hdr := hd.dropped hi hp
      have hvia : viaTemp w.m p = some { w.m with phys := p } :=
        (hi.viaTemp_iff fun t ht => hdr.mem t _ _ ht (pml1Index_lt _)).mpr ⟨ht, rfl⟩
      rw [drop, hp]
      cases hdec : Phys.decRef w.m.phys f with
      | error e =>
        rw [Phys.drop, hdec] at hp
        cases hp
      | ok x =>
        obtain ⟨st, q⟩ := x
        cases st with
        | inUse => exact ⟨_, rfl⟩
        | shouldFree => exact ⟨_, hvia⟩

/-- The page contexts do not depend on the `Phys` that a caller gives away. -/
structure Loose (w : World) (f : Nat) : Prop where
  mem : f ∈ w.s.live
  held : w.ctxs.Subperm (w.s.live.erase f)

theorem Loose.dropping {f : Nat} (hf : Loose w f) (hi : Inv w) : Dropping w w.s f where
  same := hi.same
  phys := hi.phys
  live := hf.mem
  owned t p ht := by
    by_cases h0 : p = []
    · subst h0
      rcases List.mem_cons.mp (hi.root t ht) with rfl | hc
      · exact List.mem_append_right _ (hi.backed.subset List.mem_cons_self)
      · exact List.mem_append_left _ (hf.held.subset hc)
    · refine List.mem_append_right _ (hi.backed.subset (List.mem_cons_of_mem _ ?_))
      exact List.mem_append_left _ (hi.table t p ht h0)

/-- The caller's `Phys` is gone. -/
def World.dropped (w : World) (f : Nat) (p : Phys.PhysMem) : World :=
  { w with m := { w.m with phys := p }, s := w.s.dropped f p }

theorem Dropped.sameTables {f : Nat} {p : Phys.PhysMem} (hd : Dropped w w.s f p) :
    SameTables w (w.dropped f p) := ⟨rfl, rfl, rfl, hd.regions, rfl, hd.mem⟩

theorem Dropped.inv {f : Nat} {p : Phys.PhysMem} (hd : Dropped w w.s f p) (hi : Inv w)
    (hf : Loose w f) : Inv (w.dropped f p) :=
  hi.touch hd.sameTables rfl hd.phys rfl hi.ctx (fun _ hc => hc) hf.held rfl

/-- Memory outside of the regions is not counted. -/
theorem drop_foreign {m : Machine} {f : Nat} (hf : ¬ Phys.Managed m.phys.regions f) :
    drop m f = some m := by
  obtain ⟨hd, hp⟩ := Phys.drop_foreign hf
  rw [drop, hd, hp]

/-! Stores in tables. -/

/-- The word at `a` becomes `v`. -/
def World.write (w : World) (a v : Nat) : World :=
  { w with
    m := w.m.setMem (Function.update w.m.mem a v)
    s := { w.s with p := { w.s.p with mem := Function.update w.s.p.mem a v } } }

theorem Inv.write_same (hi : Inv w) (a v : Nat) : (w.write a v).s.p = (w.write a v).m.phys := by
  simp only [World.write, Machine.setMem, Machine.mem, hi.same]

theorem Inv.write_phys (hi : Inv w) {t i : Nat} {p : List Nat} (ht : w.place t = some p)
    (hlt : i < 512) (v : Nat) : ∃ free, Phys.Inv (w.write (slot t i) v).s free := by
  obtain ⟨free, hphys⟩ := hi.phys
  exact ⟨free, Phys.inv_write hphys (hi.owned ht) (slot_in_frame hlt).1 (slot_in_frame hlt).2 v⟩

theorem write_self (w : World) (a v : Nat) : (w.write a v).m.mem a = v := Function.update_self _ _ _

/-- A word of another table, or with another index, is as before. -/
theorem Inv.write_other (hi : Inv w) {t i u j : Nat} {p q : List Nat} (ht : w.place t = some p)
    (hlt : i < 512) (hu : w.place u = some q) (hj : j < 512) (hne : ¬ (u = t ∧ j = i)) (v : Nat) :
    (w.write (slot t i) v).m.mem (slot u j) = w.m.mem (slot u j) :=
  Function.update_of_ne (fun he => hne (hi.slot_inj hu ht hj hlt he)) _ _

/-- Words of a frame that is no table are as before. -/
theorem Inv.write_outside (hi : Inv w) {t i f a : Nat} {p : List Nat} (ht : w.place t = some p)
    (hlt : i < 512) (hf : PAGE_SIZE ∣ f) (hn : w.place f = none) (h₁ : f ≤ a)
    (h₂ : a < f + PAGE_SIZE) (v : Nat) : (w.write (slot t i) v).m.mem a = w.m.mem a := by
  refine Function.update_of_ne ?_ _ _
  rintro rfl
  exact hi.slot_outside hf hn ht hlt ⟨h₁, h₂⟩

section link

variable {place : Nat → Option (List Nat)} {mem mem' : Mem} {f t i : Nat} {p : List Nat}

/-- A cleared frame becomes the table of an entry. -/
structure NewTable (place : Nat → Option (List Nat)) (mem mem' : Mem) (f t i : Nat) (p : List Nat) :
    Prop where
  fresh : place f = none
  parent : place t = some p
  way : Way (p ++ [i])
  empty : mem (slot t i) = 0
  entry : next (mem' (slot t i)) = some f
  cleared : ∀ j, j < 512 → mem' (slot f j) = 0
  other : ∀ u q j, place u = some q → j < 512 → ¬ (u = t ∧ j = i) →
    mem' (slot u j) = mem (slot u j)

theorem NewTable.old (h : NewTable place mem mem' f t i p) {u : Nat} {q : List Nat}
    (hu : place u = some q) : Function.update place f (some (p ++ [i])) u = some q := by
  have hne : u ≠ f := by
    rintro rfl
    rw [h.fresh] at hu
    cases hu
  rw [Function.update_of_ne hne, hu]

theorem NewTable.cases (h : NewTable place mem mem' f t i p) {u : Nat} {q : List Nat}
    (hu : Function.update place f (some (p ++ [i])) u = some q) :
    (u = f ∧ q = p ++ [i]) ∨ place u = some q := by
  by_cases hne : u = f
  · subst hne
    rw [Function.update_self] at hu
    cases hu
    exact .inl ⟨rfl, rfl⟩
  · rw [Function.update_of_ne hne] at hu
    exact .inr hu

theorem NewTable.root (h : NewTable place mem mem' f t i p) {r : Nat}
    (hr : Function.update place f (some (p ++ [i])) r = some []) : place r = some [] := by
  rcases h.cases hr with ⟨-, hq⟩ | hr
  · exact absurd hq.symm (by simp)
  · exact hr

theorem NewTable.linked (h : NewTable place mem mem' f t i p) (hl : Linked place mem)
    (hroot : p = [] → 256 ≤ i → ∀ r, place r = some [] → r = t) :
    Linked (Function.update place f (some (p ++ [i]))) mem' where
  way u q hu := by
    rcases h.cases hu with ⟨-, rfl⟩ | hu
    · exact h.way
    · exact hl.way u q hu
  child u q j hu hj := by
    rcases h.cases hu with ⟨rfl, rfl⟩ | hold
    · exact .inl (h.cleared j (way_snoc hj).2)
    by_cases hslot : u = t ∧ j = i
    · obtain ⟨rfl, rfl⟩ := hslot
      have hq : p = q := Option.some.inj (h.parent.symm.trans hold)
      subst hq
      exact .inr ⟨f, h.entry, Function.update_self _ _ _⟩
    · rw [h.other u q j hold (way_snoc hj).2 hslot]
      rcases hl.child u q j hold hj with h0 | ⟨v, hv, hpv⟩
      · exact .inl h0
      · exact .inr ⟨v, hv, h.old hpv⟩
  self r hr := by
    have hold := h.root hr
    rw [h.other r [] 511 hold (by decide)]
    · exact hl.self r hold
    · -- the window is no place for a table
      rintro ⟨rfl, rfl⟩
      have hq : p = [] := Option.some.inj (h.parent.symm.trans hold)
      subst hq
      exact h.way.2.2 rfl
  agree r r' j hr hr' h₁ h₂ := by
    have hold := h.root hr
    have hold' := h.root hr'
    by_cases hp : p = [] ∧ 256 ≤ i
    · rw [hroot hp.1 hp.2 r hold, hroot hp.1 hp.2 r' hold']
    · have hslot : ∀ x, place x = some [] → ¬ (x = t ∧ j = i) := by
        rintro x hx ⟨rfl, rfl⟩
        exact hp ⟨Option.some.inj (h.parent.symm.trans hx), h₁⟩
      rw [h.other r [] j hold (by omega) (hslot r hold),
        h.other r' [] j hold' (by omega) (hslot r' hold')]
      exact hl.agree r r' j hold hold' h₁ h₂

/-- A last level table is not the table of the new entry. -/
theorem NewTable.last (h : NewTable place mem mem' f t i p) {u j : Nat} {q : List Nat}
    (hu : place u = some q) (hq : q.length = 3) (hj : j < 512) :
    mem' (slot u j) = mem (slot u j) := by
  refine h.other u q j hu hj ?_
  rintro ⟨rfl, rfl⟩
  rw [← Option.some.inj (h.parent.symm.trans hu)] at hq
  have hlen := (way_snoc h.way).1
  omega

/-- Entries that lead on were not zero, so they are not the new one. -/
theorem NewTable.links (h : NewTable place mem mem' f t i p) {u v j : Nat} {q : List Nat}
    (hu : place u = some q) (hj : j < 512) (hv : next (mem (slot u j)) = some v) :
    mem' (slot u j) = mem (slot u j) := by
  refine h.other u q j hu hj ?_
  rintro ⟨rfl, rfl⟩
  exact (next_some hv).1 h.empty

theorem NewTable.find_mono (h : NewTable place mem mem' f t i p) (hl : Linked place mem) {r u : Nat}
    {is : List Nat} (hr : place r = some []) (hw : Way is) (hu : find next mem r is = some u) :
    find next mem' r is = some u :=
  hl.placed.find_mono (fun _ _ _ _ hx hwx hv => h.links hx (way_snoc hwx).2 hv) hr hw hu

/-- The only way that is new leads to the new table. -/
theorem NewTable.find_cases (h : NewTable place mem mem' f t i p) (hl : Linked place mem)
    {x u : Nat} {q is : List Nat} (hx : place x = some q) (hw : Way (q ++ is))
    (hu : find next mem' x is = some u) : u = f ∨ find next mem x is = some u := by
  induction is generalizing x q with
  | nil => exact .inr hu
  | cons j is ih =>
    have hwj : Way (q ++ [j]) := by
      rw [List.append_cons] at hw
      exact way_left _ _ hw
    rw [find] at hu
    obtain ⟨v, hv, hu⟩ := Option.bind_eq_some_iff.mp hu
    by_cases hslot : x = t ∧ j = i
    · obtain ⟨rfl, rfl⟩ := hslot
      rw [h.entry] at hv
      cases hv
      cases is with
      | nil => exact .inl (Option.some.inj hu).symm
      | cons k is =>
        have hk : k < 512 := hw.2.1 k (by simp)
        rw [find, h.cleared k hk] at hu
        cases hu
    · rw [h.other x q j hx (way_snoc hwj).2 hslot] at hv
      obtain ⟨hpv, hwv⟩ := hl.placed.step hx hw hv
      rcases ih hpv hwv hu with hf | hold
      · exact .inl hf
      · refine .inr ?_
        rw [find, hv]
        exact hold

/-- A new table maps no page. -/
theorem NewTable.pageWord (h : NewTable place mem mem' f t i p) (hl : Linked place mem)
    (hl' : Linked (Function.update place f (some (p ++ [i]))) mem') {r virt : Nat}
    (hr : place r = some []) (hv : pml4Index virt < 511) :
    pageWord mem' r virt = pageWord mem r virt := by
  rw [hl.pageWord_eq hr hv, hl'.pageWord_eq (h.old hr) hv]
  have hway := way_lastTable hv
  cases hf : find next mem r (lastTable virt) with
  | some u =>
    rw [h.find_mono hl hr hway hf]
    simp only [Option.elim_some, Option.some.injEq]
    exact h.last (hl.place_last hr hv hf) rfl (pml1Index_lt _)
  | none =>
    cases hf' : find next mem' r (lastTable virt) with
    | none => rfl
    | some u =>
      rcases h.find_cases hl hr hway hf' with rfl | hold
      · simp only [Option.elim_some, Option.elim_none, Option.some.injEq]
        exact h.cleared _ (pml1Index_lt _)
      · exact absurd (hf.symm.trans hold) (by simp)

end link

/-- The entry of a new table. -/
theorem next_table {f : Nat} (hf : PAGE_SIZE ∣ f) : next (f ||| tableFlags) = some f :=
  next_or hf (by decide) (by decide)

/-- The frame has become the table at slot `i` of `t`. -/
def World.link (w : World) (f t i : Nat) (p : List Nat) : World where
  m := (w.write (slot t i) (f ||| tableFlags)).m
  s := { (w.write (slot t i) (f ||| tableFlags)).s with
    live := w.s.live.erase f
    raws := f :: w.s.raws }
  place := Function.update w.place f (some (p ++ [i]))
  ctxs := w.ctxs
  tables := f :: w.tables
  slots := w.slots

/-- In the kernel half of a PML4 a new table is for the only PML4 there is. -/
theorem Inv.link (hi : Inv w) {f t i : Nat} {p : List Nat} (hf : Loose w f)
    (hnew : NewTable w.place w.m.mem (w.link f t i p).m.mem f t i p)
    (hroot : p = [] → 256 ≤ i → ∀ r, w.place r = some [] → r = t) : Inv (w.link f t i p) where
  same := hi.write_same _ _
  phys := by
    obtain ⟨free, hphys⟩ := hi.write_phys hnew.parent (way_snoc hnew.way).2 (f ||| tableFlags)
    exact ⟨free, Phys.inv_intoRaw hphys hf.mem⟩
  aligned := hi.aligned
  bounded := hi.bounded
  upper := hi.upper
  linked := hnew.linked hi.linked hroot
  loaded := hnew.old hi.loaded
  root r hr := hi.root r (hnew.root hr)
  ctx c hc := hnew.old (hi.ctx c hc)
  table u q hu hq := by
    rcases hnew.cases hu with ⟨rfl, -⟩ | hu
    · exact List.mem_cons_self
    · exact List.mem_cons_of_mem _ (hi.table u q hu hq)
  once := hi.once
  mapped u j := by
    refine (hi.mapped u j).trans ⟨?_, ?_⟩
    · rintro ⟨⟨q, hu, hq, hj⟩, hm⟩
      refine ⟨⟨q, hnew.old hu, hq, hj⟩, ?_⟩
      rw [hnew.last hu hq hj]
      exact hm
    · rintro ⟨⟨q, hu, hq, hj⟩, hm⟩
      rcases hnew.cases hu with ⟨rfl, -⟩ | hu
      · exact absurd (hnew.cleared j hj) hm.1
      · rw [hnew.last hu hq hj] at hm
        exact ⟨⟨q, hu, hq, hj⟩, hm⟩
  held := hf.held
  backed := by
    have hleaf : leafFrames (w.link f t i p).m.mem w.slots = leafFrames w.m.mem w.slots := by
      refine leafFrames_congr fun u j hm => ?_
      obtain ⟨⟨q, hu, hq, hj⟩, -⟩ := (hi.mapped u j).mp hm
      exact hnew.last hu hq hj
    have hperm : (w.link f t i p).raws.Perm (f :: w.raws) := by
      simp only [World.raws]
      change (w.m.cr3 :: (f :: w.tables ++ leafFrames (w.link f t i p).m.mem w.slots)).Perm _
      rw [hleaf]
      exact List.Perm.swap f w.m.cr3 _
    exact hperm.subperm_right.mpr ((List.subperm_cons f).mpr hi.backed)

/-! Tables on the way to a page. -/

/-- What the functions that find or make tables leave as it was: who holds
which frames, the entries that lead to tables, every page, the contents of
all other frames, and for the user half all words of the kernel. -/
structure Ext (h : Half) (w w' : World) : Prop where
  live : w'.s.live = w.s.live
  ctxs : w'.ctxs = w.ctxs
  regions : w'.m.phys.regions = w.m.phys.regions
  cr3 : w'.m.cr3 = w.m.cr3
  tempPage : w'.m.tempPage = w.m.tempPage
  places : ∀ t p, w.place t = some p → w'.place t = some p
  roots : ∀ r, w'.place r = some [] → w.place r = some []
  made : ∃ tabs, w'.s.owners.Perm (tabs ++ w.s.owners) ∧ ∀ t ∈ tabs, t ∉ w.s.owners ∧
    ∃ is, is ≠ [] ∧ Way is ∧ find next w'.m.mem w'.m.cr3 is = some t
  finds : ∀ is t, Way is → find next w.m.mem w.m.cr3 is = some t →
    find next w'.m.mem w'.m.cr3 is = some t
  slots : w'.slots = w.slots
  links : ∀ t p i u, w.place t = some p → p.length < 3 → i < 512 →
    next (w.m.mem (slot t i)) = some u → w'.m.mem (slot t i) = w.m.mem (slot t i)
  leaves : ∀ t p i, w.place t = some p → p.length = 3 → i < 512 →
    w'.m.mem (slot t i) = w.m.mem (slot t i)
  words : ∀ r virt, w.place r = some [] → pml4Index virt < 511 →
    pageWord w'.m.mem r virt = pageWord w.m.mem r virt
  frames : ∀ f ∈ w.s.owners, w.place f = none → w'.place f = none ∧
    ∀ a, f ≤ a → a < f + PAGE_SIZE → w'.m.mem a = w.m.mem a
  zone : h = .user → ∀ a, Zone w.place a → w'.m.mem a = w.m.mem a

theorem Ext.refl (h : Half) (w : World) : Ext h w w :=
  ⟨rfl, rfl, rfl, rfl, rfl, fun _ _ hk => hk, fun _ hr => hr,
    ⟨[], .refl _, fun _ ht => absurd ht List.not_mem_nil⟩, fun _ _ _ hf => hf, rfl, fun _ _ _ _ _ _ _ _ => rfl, fun _ _ _ _ _ _ => rfl, fun _ _ _ _ => rfl, fun _ _ hn => ⟨hn, fun _ _ _ => rfl⟩,
    fun _ _ _ => rfl⟩

theorem Ext.owners {h : Half} (he : Ext h w w') {f : Nat} (hf : f ∈ w.s.owners) :
    f ∈ w'.s.owners := by
  obtain ⟨tabs, hperm, -⟩ := he.made
  exact hperm.mem_iff.mpr (List.mem_append_right _ hf)

theorem Ext.counts {h : Half} (he : Ext h w w') {f : Nat} (hf : f ∈ w.s.owners) :
    w'.s.owners.count f = w.s.owners.count f := by
  obtain ⟨tabs, hperm, hnew⟩ := he.made
  have hnot : f ∉ tabs := fun hx => (hnew f hx).1 hf
  rw [hperm.count_eq, List.count_append, List.count_eq_zero_of_not_mem hnot, Nat.zero_add]

theorem Ext.trans {h : Half} {w₁ w₂ w₃ : World} (h₁ : Ext h w₁ w₂) (h₂ : Ext h w₂ w₃) :
    Ext h w₁ w₃ where
  live := h₂.live.trans h₁.live
  ctxs := h₂.ctxs.trans h₁.ctxs
  regions := h₂.regions.trans h₁.regions
  cr3 := h₂.cr3.trans h₁.cr3
  tempPage := h₂.tempPage.trans h₁.tempPage
  places t p hp := h₂.places t p (h₁.places t p hp)
  roots r hr := h₁.roots r (h₂.roots r hr)
  made := by
    obtain ⟨tabs₁, hp₁, hn₁⟩ := h₁.made
    obtain ⟨tabs₂, hp₂, hn₂⟩ := h₂.made
    refine ⟨tabs₂ ++ tabs₁, ?_, fun t ht => ?_⟩
    · rw [List.append_assoc]
      exact hp₂.trans (hp₁.append_left tabs₂)
    · rcases List.mem_append.mp ht with ht | ht
      · obtain ⟨hno, hfind⟩ := hn₂ t ht
        exact ⟨fun hx => hno (h₁.owners hx), hfind⟩
      · obtain ⟨hno, is, h0, hw, hf⟩ := hn₁ t ht
        exact ⟨hno, is, h0, hw, h₂.finds is t hw hf⟩
  finds is t hw hf := h₂.finds is t hw (h₁.finds is t hw hf)
  slots := h₂.slots.trans h₁.slots
  links t p i u hp hl hi hn := by
    have he := h₁.links t p i u hp hl hi hn
    rw [h₂.links t p i u (h₁.places t p hp) hl hi (he ▸ hn), he]
  leaves t p i hp hl hi := by
    rw [h₂.leaves t p i (h₁.places t p hp) hl hi, h₁.leaves t p i hp hl hi]
  words r virt hr hv := by
    rw [h₂.words r virt (h₁.places r [] hr) hv, h₁.words r virt hr hv]
  frames f hf hn := by
    obtain ⟨hn₁, hm₁⟩ := h₁.frames f hf hn
    obtain ⟨hn₂, hm₂⟩ := h₂.frames f (h₁.owners hf) hn₁
    exact ⟨hn₂, fun a ha hb => (hm₂ a ha hb).trans (hm₁ a ha hb)⟩
  zone hh a ha := by
    have ha' : Zone w₂.place a := by
      obtain ⟨t, p, i, hp, hz⟩ := ha
      exact ⟨t, p, i, h₁.places t p hp, hz⟩
    rw [h₂.zone hh a ha', h₁.zone hh a ha]

theorem Ext.loose {h : Half} (he : Ext h w w') {f : Nat} (hf : Loose w f) : Loose w' f :=
  ⟨he.live ▸ hf.mem, by rw [he.ctxs, he.live]; exact hf.held⟩

theorem Ext.tempFree {h : Half} (he : Ext h w w') (hi : Inv w) (hi' : Inv w')
    (ht : TempFree w.m) : TempFree w'.m := by
  obtain ⟨t, hf, h0⟩ := ht
  have hf' := he.finds _ t (way_lastTable hi.upper.2) hf
  have hword := he.words w.m.cr3 w.m.tempPage hi.loaded hi.upper.2
  have hcr3 : w'.place w.m.cr3 = some [] := he.places _ _ hi.loaded
  rw [hi.linked.pageWord_eq hi.loaded hi.upper.2, hi'.linked.pageWord_eq hcr3 hi.upper.2, hf,
    ← he.cr3, hf'] at hword
  rw [TempFree, he.tempPage]
  exact ⟨t, hf', (Option.some.inj hword).trans h0⟩

theorem Handed.sameTables {f : Nat} {q : Phys.PhysMem} (h : Handed w f q) (hi : Inv w) :
    SameTables w (w.hand f q) :=
  ⟨rfl, rfl, rfl, h.regions, rfl, fun t p i ht hlt => h.mem hi t p i ht hlt⟩

theorem Inv.hand_loose (hi : Inv w) (f : Nat) (q : Phys.PhysMem) : Loose (w.hand f q) f := by
  refine ⟨List.mem_cons_self, ?_⟩
  change w.ctxs.Subperm ((f :: w.s.live).erase f)
  rw [List.erase_cons_head]
  exact hi.held

/-- The entry at the end of a way leads to a table of its own. -/
theorem Inv.find_snoc (hi : Inv w) {t i : Nat} {is : List Nat} (hw : Way (is ++ [i]))
    (hf : find next w.m.mem w.m.cr3 is = some t) (h0 : w.m.mem (slot t i) ≠ 0) :
    ∃ u, find next w.m.mem w.m.cr3 (is ++ [i]) = some u := by
  have ht : w.place t = some is := hi.linked.placed.place_find hi.loaded (way_left _ _ hw) hf
  rcases hi.linked.child t is i ht hw with h | ⟨u, hu, -⟩
  · exact absurd h h0
  · exact ⟨u, Radix.find_snoc hf hu⟩

/-- A new frame becomes a table. -/
theorem Inv.newTable (hi : Inv w) {f t i : Nat} {q : Phys.PhysMem} {is : List Nat}
    (hh : Handed w f q) (ht : w.place t = some is) (hw : Way (is ++ [i]))
    (h0 : w.m.mem (slot t i) = 0) :
    NewTable (w.hand f q).place (w.hand f q).m.mem ((w.hand f q).link f t i is).m.mem f t i is where
  fresh := hi.unowned_no_table hh.unowned
  parent := ht
  way := hw
  empty := (hh.mem hi t is i ht (way_snoc hw).2).trans h0
  entry := by
    have hself := write_self (w.hand f q) (slot t i) (f ||| tableFlags)
    rw [World.link, hself]
    exact next_table hh.aligned
  cleared j hj := by
    obtain ⟨h₁, h₂⟩ := slot_in_frame (t := f) hj
    exact (hh.inv.write_outside (w := w.hand f q) ht (way_snoc hw).2 hh.aligned
      (hi.unowned_no_table hh.unowned) h₁ h₂ _).trans (hh.zero _ h₁ h₂)
  other u p j hu hj hne := hh.inv.write_other (w := w.hand f q) ht (way_snoc hw).2 hu hj hne _

theorem Inv.link_ext (hi : Inv w) {f t i : Nat} {q : Phys.PhysMem} {is : List Nat}
    (hh : Handed w f q) (ht : w.place t = some is) (hw : Way (is ++ [i]))
    (h0 : w.m.mem (slot t i) = 0) (hinv : Inv ((w.hand f q).link f t i is))
    (hfind : find next ((w.hand f q).link f t i is).m.mem w.m.cr3 (is ++ [i]) = some f) :
    Ext (half (is ++ [i])) w ((w.hand f q).link f t i is) where
  live := List.erase_cons_head _ _
  ctxs := rfl
  regions := hh.regions
  cr3 := rfl
  tempPage := rfl
  places u p hu := (hi.newTable hh ht hw h0).old hu
  roots r hr := (hi.newTable hh ht hw h0).root hr
  made := by
    refine ⟨[f], ?_, fun u hu => ?_⟩
    · change ((f :: w.s.live).erase f ++ f :: w.s.raws).Perm ([f] ++ (w.s.live ++ w.s.raws))
      rw [List.erase_cons_head]
      exact List.perm_middle
    · rw [List.mem_singleton.mp hu]
      exact ⟨hh.unowned, is ++ [i], by simp, hw, hfind⟩
  finds js u hwj hf :=
    (hi.newTable hh ht hw h0).find_mono hh.inv.linked hi.loaded hwj
      (((hh.sameTables hi).find hi hi.loaded hwj).trans hf)
  slots := rfl
  links u p j v hu hp hj hv := by
    have hsame := hh.mem hi u p j hu hj
    have hv' : next ((w.hand f q).m.mem (slot u j)) = some v := by
      change next (q.mem (slot u j)) = some v
      rw [hsame]
      exact hv
    exact ((hi.newTable hh ht hw h0).links hu hj hv').trans hsame
  leaves u p j hu hp hj :=
    ((hi.newTable hh ht hw h0).last hu hp hj).trans (hh.mem hi u p j hu hj)
  words r virt hr hv :=
    ((hi.newTable hh ht hw h0).pageWord hh.inv.linked hinv.linked hr hv).trans
      ((hh.sameTables hi).pageWord hi hr hv)
  frames g hg hn := by
    have hne : g ≠ f := by
      rintro rfl
      exact hh.unowned hg
    obtain ⟨free, hphys⟩ := hi.phys
    have hga : PAGE_SIZE ∣ g := (hphys.frame g hg).1
    refine ⟨?_, fun a h₁ h₂ => ?_⟩
    · change Function.update w.place f _ g = none
      rw [Function.update_of_ne hne, hn]
    · refine (hh.inv.write_outside (w := w.hand f q) ht (way_snoc hw).2 hga hn h₁ h₂ _).trans ?_
      exact hh.outside a (Phys.frame_apart hh.aligned hga hne h₁ h₂)
  zone hu a ha := by
    obtain ⟨u, p, j, hp, hj, hk, rfl⟩ := ha
    have hne : ¬ (u = t ∧ j = i) := by
      rintro ⟨rfl, rfl⟩
      rw [← Option.some.inj (ht.symm.trans hp), hu] at hk
      cases hk
    exact ((hi.newTable hh ht hw h0).other u p j hp hj hne).trans (hh.mem hi u p j hp hj)

/-- What `ensure_table` comes to: the table is there, or memory is exhausted, or a new frame has
become the table. -/
inductive TableEnd (w : World) (t i : Nat) (is : List Nat) : Bool → World → Prop
  | found (entry : w.m.mem (slot t i) ≠ 0) : TableEnd w t i is true w
  | full (entry : w.m.mem (slot t i) = 0) (taken : alloc w.m = some (none, w.m)) :
      TableEnd w t i is false w
  | made {f : Nat} {q : Phys.PhysMem} (entry : w.m.mem (slot t i) = 0)
      (taken : alloc w.m = some (some f, (w.hand f q).m)) (handed : Handed w f q)
      (inv : Inv ((w.hand f q).link f t i is))
      (leads : find next ((w.hand f q).link f t i is).m.mem w.m.cr3 (is ++ [i]) = some f) :
      TableEnd w t i is true ((w.hand f q).link f t i is)

/-- `ensure_table` for one level. In the kernel half of the PML4 it needs that
the entry is there or that no other PML4 is. -/
theorem ensureTable_ends (hi : Inv w) {ent t i : Nat} {is : List Nat} {ok : Bool} {m' : Machine}
    (hp : Points ent is i) (hw : Way (is ++ [i])) (hf : find next w.m.mem w.m.cr3 is = some t)
    (hroot : is = [] → 256 ≤ i → w.m.mem (slot w.m.cr3 i) = 0 →
      ∀ r, w.place r = some [] → r = w.m.cr3)
    (h : ensureTable w.m ent = some (ok, m')) : ∃ w', w'.m = m' ∧ TableEnd w t i is ok w' := by
  have ht : w.place t = some is := hi.linked.placed.place_find hi.loaded (way_left _ _ hw) hf
  rw [ensureTable, hi.load_eq hp, hf] at h
  simp only [Option.map_some, Option.bind_some] at h
  split at h
  · rename_i h0
    obtain ⟨⟨x, m₁⟩, ha, h⟩ := Option.bind_eq_some_iff.mp h
    rcases alloc_spec hi ha with ⟨rfl, rfl⟩ | ⟨f, q, rfl, rfl, hh⟩
    · cases h
      exact ⟨w, rfl, .full h0 ha⟩
    · have hf' : find next (w.hand f q).m.mem (w.hand f q).m.cr3 is = some t := by
        rw [← hf]
        exact (hh.sameTables hi).find hi hi.loaded (way_left _ _ hw)
      have hst := hh.inv.store_eq (w := w.hand f q) hp (f ||| tableFlags)
      rw [hf'] at hst
      have hnew := hi.newTable hh ht hw h0
      have hinv : Inv ((w.hand f q).link f t i is) := by
        refine hh.inv.link (hi.hand_loose f q) hnew ?_
        rintro rfl h256 r hr
        cases hf
        exact hroot rfl h256 h0 r hr
      obtain ⟨m₂, hm₂, h⟩ := Option.map_eq_some_iff.mp h
      cases h
      change store (w.hand f q).m ent (f ||| tableFlags) = some m' at hm₂
      rw [hst] at hm₂
      cases hm₂
      have hfind := Radix.find_snoc
        (hnew.find_mono hh.inv.linked hi.loaded (way_left _ _ hw) hf') hnew.entry
      exact ⟨(w.hand f q).link f t i is, rfl, .made h0 ha hh hinv hfind⟩
  · rename_i h0
    cases h
    exact ⟨w, rfl, .found h0⟩

theorem ensureTable_spec (hi : Inv w) {ent t i : Nat} {is : List Nat} {ok : Bool} {m' : Machine}
    (hp : Points ent is i) (hw : Way (is ++ [i])) (hf : find next w.m.mem w.m.cr3 is = some t)
    (hroot : is = [] → 256 ≤ i → w.m.mem (slot w.m.cr3 i) = 0 →
      ∀ r, w.place r = some [] → r = w.m.cr3)
    (h : ensureTable w.m ent = some (ok, m')) :
    ∃ w', w'.m = m' ∧ Inv w' ∧ Ext (half (is ++ [i])) w w' ∧
      (ok = true → ∃ u, find next m'.mem m'.cr3 (is ++ [i]) = some u) := by
  have ht : w.place t = some is := hi.linked.placed.place_find hi.loaded (way_left _ _ hw) hf
  obtain ⟨w', rfl, hend⟩ := ensureTable_ends hi hp hw hf hroot h
  refine ⟨w', rfl, ?_⟩
  cases hend with
  | found h0 => exact ⟨hi, .refl _ w, fun _ => hi.find_snoc hw hf h0⟩
  | full h0 ha => exact ⟨hi, .refl _ w, fun hok => by cases hok⟩
  | @made f q h0 ha hh hinv hfind =>
    exact ⟨hinv, hi.link_ext hh ht hw h0 hinv hfind, fun _ => ⟨f, hfind⟩⟩

end Crabos.Page
