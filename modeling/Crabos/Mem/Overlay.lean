import Crabos.Lib.Lists
import Crabos.Mem.Shared

/-!
# Entries that are laid over the tables

The loop of `map_physical_memory` makes the missing tables and sets the last
entries of its pages. The two do not meet: no table is looked for through such
an entry, and no count is read. So the machine after the loop is the machine
with the tables alone, with the entries laid over its memory and the new
references added to its counts. This holds for any physical address, also for a
frame that is still free.
-/
namespace Crabos.Page

open Crabos.Words Crabos.Radix Crabos.Interface Crabos.User Crabos.Run

/-! Memory. -/

/-- The memory with these words in place of its own. -/
def covered (ps : List (Nat × Nat)) (mem : Mem) : Mem := fun a => (ps.lookup a).getD (mem a)

section cover

variable {ps : List (Nat × Nat)} {mem : Mem} {a e : Nat}

theorem covered_cons (x : Nat × Nat) (ps : List (Nat × Nat)) (mem : Mem) (a : Nat) :
    covered (x :: ps) mem a = if a = x.1 then x.2 else covered ps mem a := by
  obtain ⟨b, e⟩ := x
  by_cases h : a = b
  · simp [covered, h]
  · simp only [covered, List.lookup_cons, beq_eq_false_iff_ne.mpr h, if_neg h]

theorem covered_other (h : a ∉ ps.map Prod.fst) : covered ps mem a = mem a := by
  induction ps with
  | nil => rfl
  | cons x ps ih =>
    obtain ⟨h₁, h₂⟩ := not_or.mp (fun hx => h (List.mem_cons.mpr hx))
    rw [covered_cons, if_neg h₁]
    exact ih h₂

theorem covered_mem (hnd : (ps.map Prod.fst).Nodup) (h : (a, e) ∈ ps) : covered ps mem a = e := by
  induction ps with
  | nil => exact absurd h List.not_mem_nil
  | cons x ps ih =>
    obtain ⟨hx, hnd⟩ := List.nodup_cons.mp hnd
    rw [covered_cons]
    cases h with
    | head => exact if_pos rfl
    | tail _ h =>
      have hne : a ≠ x.1 := fun he => hx (he ▸ List.mem_map_of_mem h)
      rw [if_neg hne]
      exact ih hnd h

/-- Words on which both memories agree stay the same. -/
theorem covered_congr {mem' : Mem} (h : a ∉ ps.map Prod.fst → mem' a = mem a) :
    covered ps mem' a = covered ps mem a := by
  by_cases ha : a ∈ ps.map Prod.fst
  · induction ps with
    | nil => exact absurd ha List.not_mem_nil
    | cons x ps ih =>
      rw [covered_cons, covered_cons]
      by_cases hx : a = x.1
      · rw [if_pos hx, if_pos hx]
      · rw [if_neg hx, if_neg hx]
        have hrest : a ∈ ps.map Prod.fst := (List.mem_cons.mp ha).resolve_left hx
        exact ih (fun hn => absurd hrest hn) hrest
  · rw [covered_other ha, covered_other ha, h ha]

/-- A word that nothing is laid over is written below. -/
theorem covered_update (h : a ∉ ps.map Prod.fst) (v : Nat) :
    covered ps (Function.update mem a v) = Function.update (covered ps mem) a v := by
  funext b
  by_cases hb : b = a
  · subst hb
    rw [covered_other h, Function.update_self, Function.update_self]
  · rw [Function.update_of_ne hb]
    exact covered_congr fun _ => Function.update_of_ne hb _ _

theorem covered_snoc (h : a ∉ ps.map Prod.fst) (e : Nat) :
    covered (ps ++ [(a, e)]) mem = Function.update (covered ps mem) a e := by
  induction ps with
  | nil =>
    funext b
    rw [List.nil_append, covered_cons, Function.update_apply]
  | cons x ps ih =>
    obtain ⟨h₁, h₂⟩ := not_or.mp (fun hx => h (List.mem_cons.mpr hx))
    funext b
    rw [List.cons_append, covered_cons, ih h₂]
    by_cases hb : b = a
    · subst hb
      rw [if_neg h₁, Function.update_self, Function.update_self]
    · rw [Function.update_of_ne hb, Function.update_of_ne hb, covered_cons]

/-- The first word is taken off again. -/
theorem covered_uncons (h : a ∉ ps.map Prod.fst) (e : Nat) :
    Function.update (covered ((a, e) :: ps) mem) a (mem a) = covered ps mem := by
  funext b
  by_cases hb : b = a
  · subst hb
    rw [Function.update_self, covered_other h]
  · rw [Function.update_of_ne hb, covered_cons, if_neg hb]

end cover

/-! The allocator. -/

/-- How many of the frames are counted at a page number. -/
def shares (regions : List Phys.PhysRegion) (fs : List Nat) (n : Nat) : Nat :=
  fs.countP fun f => decide (Phys.Managed regions f ∧ f / PAGE_SIZE = n)

/-- The allocator with one more reference for each of the frames, and with words laid over its
memory. -/
def lay (p : Phys.PhysMem) (fs : List Nat) (ps : List (Nat × Nat)) : Phys.PhysMem :=
  { p with rc := fun n => p.rc n + shares p.regions fs n, mem := covered ps p.mem }

/-- No word is laid over the frame. -/
def Clear (ps : List (Nat × Nat)) (f : Nat) : Prop :=
  ∀ a ∈ ps.map Prod.fst, ¬ (f ≤ a ∧ a < f + PAGE_SIZE)

section allocator

variable {p q : Phys.PhysMem} {fs : List Nat} {ps : List (Nat × Nat)}

theorem Clear.covered {f a : Nat} (h : Clear ps f) (h₁ : f ≤ a) (h₂ : a < f + PAGE_SIZE) (mem : Mem) :
    covered ps mem a = mem a := covered_other fun ha => h a ha ⟨h₁, h₂⟩

theorem shares_snoc (regions : List Phys.PhysRegion) (fs : List Nat) (f n : Nat) :
    shares regions (fs ++ [f]) n =
      shares regions fs n + if Phys.Managed regions f ∧ f / PAGE_SIZE = n then 1 else 0 := by
  simp [shares, List.countP_append, List.countP_singleton]

theorem shares_cons (regions : List Phys.PhysRegion) (f : Nat) (fs : List Nat) (n : Nat) :
    shares regions (f :: fs) n =
      shares regions fs n + if Phys.Managed regions f ∧ f / PAGE_SIZE = n then 1 else 0 := by
  simp [shares, List.countP_cons]

/-- The count of a frame goes up below. -/
theorem new_lay (p : Phys.PhysMem) (fs : List Nat) (ps : List (Nat × Nat)) (f : Nat) :
    Phys.new (lay p fs ps) f = (Phys.new p f).map fun x => (x.1, lay x.2 fs ps) := by
  have hcount : Phys.refCount (lay p fs ps) f = Phys.refCount p f := rfl
  have hen : (lay p fs ps).refCountEnabled = p.refCountEnabled := rfl
  simp only [Phys.new, Phys.incRef, Phys.incRefForInit, hcount, hen]
  by_cases h : p.refCountEnabled = true
  · simp only [if_pos h]
    cases Phys.refCount p f with
    | error e => rfl
    | ok n =>
      cases n with
      | none => rfl
      | some n =>
        change Except.ok _ = Except.ok _
        congr 2
        simp only [lay, Phys.PhysMem.mk.injEq, true_and, and_true]
        funext k
        by_cases hk : k = n
        · subst hk
          simp only [Function.update_self]
          omega
        · simp only [Function.update_of_ne hk]
  · simp only [if_neg h]
    rfl

/-- The reference of a new `Phys` can be counted above as well. -/
theorem new_laid {f g : Nat} (hen : p.refCountEnabled = true)
    (h : Phys.new (lay p fs ps) f = .ok (g, q)) : g = f ∧ q = lay p (fs ++ [f]) ps := by
  rw [new_lay] at h
  simp only [Phys.new, Phys.incRef, if_pos hen, Phys.incRefForInit, Phys.refCount] at h
  have hrc : (lay p (fs ++ [f]) ps).rc = fun n => p.rc n + shares p.regions fs n +
      if Phys.Managed p.regions f ∧ f / PAGE_SIZE = n then 1 else 0 := by
    funext n
    simp only [lay, shares_snoc]
    omega
  by_cases hm : Phys.Managed p.regions f
  · rw [if_neg (not_not.mpr hm)] at h
    split at h
    · cases h
    split at h
    · cases h
    cases h
    refine ⟨rfl, ?_⟩
    simp only [lay, Phys.PhysMem.mk.injEq, true_and, and_true] at hrc ⊢
    rw [hrc]
    funext n
    by_cases hn : n = f / PAGE_SIZE
    · subst hn
      rw [Function.update_self, if_pos ⟨hm, rfl⟩]
      omega
    · rw [Function.update_of_ne hn, if_neg fun hx => hn hx.2.symm]
      omega
  · rw [if_pos hm] at h
    cases h
    refine ⟨rfl, ?_⟩
    simp only [lay, Phys.PhysMem.mk.injEq, true_and, and_true] at hrc ⊢
    rw [hrc]
    funext n
    rw [if_neg fun hx => hm hx.1]
    omega

/-- A link is written or read in a frame that is not covered. -/
theorem readLink_covered {f : Nat} (h : Clear ps f) (mem : Mem) :
    Phys.readLink (covered ps mem) f = Phys.readLink mem f :=
  Phys.readLink_congr fun _ h₁ h₂ => h.covered h₁ h₂ mem

theorem writeLink_covered {f : Nat} (h : Clear ps f) (mem : Mem) (next : Option Nat) :
    Phys.writeLink (covered ps mem) f next = covered ps (Phys.writeLink mem f next) := by
  have hf : f ∉ ps.map Prod.fst := fun ha => h f ha ⟨Nat.le_refl f, by simp [PAGE_SIZE]⟩
  have hf' : f + 8 ∉ ps.map Prod.fst := fun ha =>
    h (f + 8) ha ⟨Nat.le_add_right f 8, by simp [PAGE_SIZE]⟩
  cases next with
  | none => exact (covered_update hf 0).symm
  | some g =>
    change Function.update (Function.update (covered ps mem) f 1) (f + 8) g = _
    rw [← covered_update hf, ← covered_update hf']
    rfl

theorem zero_covered {f : Nat} (h : Clear ps f) (mem : Mem) :
    zero (covered ps mem) f PAGE_SIZE = covered ps (zero mem f PAGE_SIZE) := by
  funext a
  by_cases ha : f ≤ a ∧ a < f + PAGE_SIZE
  · rw [zero_inside _ _ _ _ ha.1 ha.2, h.covered ha.1 ha.2, zero_inside _ _ _ _ ha.1 ha.2]
  · rw [zero_outside _ _ _ _ ha]
    exact covered_congr fun _ => (zero_outside _ _ _ _ ha).symm

theorem allocFreelist_lay (hfree : ∀ f, p.nextFree = some f → Clear ps f) :
    Phys.allocFreelist (lay p fs ps) =
      (Phys.allocFreelist p).map fun x => (x.1, lay x.2 fs ps) := by
  have hnext : (lay p fs ps).nextFree = p.nextFree := rfl
  rw [Phys.allocFreelist, Phys.allocFreelist, hnext]
  cases hf : p.nextFree with
  | none => rfl
  | some raw =>
    have hclear := hfree raw hf
    change (Phys.new (lay { p with nextFree := none } fs ps) raw).map _ =
      ((Phys.new { p with nextFree := none } raw).map _).map _
    rw [new_lay]
    cases hn : Phys.new { p with nextFree := none } raw with
    | error e => rfl
    | ok x =>
      obtain ⟨g, q⟩ := x
      obtain ⟨rfl, rc, rfl⟩ := Phys.new_rc hn
      simp only [Except.map, lay]
      rw [readLink_covered hclear, writeLink_covered hclear, zero_covered hclear]

theorem allocNew_lay (hbump : ∀ f bump, Phys.bumpNext p.regions p.bumpAlloc = some (f, bump) →
    Clear ps f) :
    Phys.allocNew (lay p fs ps) = (Phys.allocNew p).map fun x => (x.1, lay x.2 fs ps) := by
  have hsame : Phys.bumpNext (lay p fs ps).regions (lay p fs ps).bumpAlloc =
      Phys.bumpNext p.regions p.bumpAlloc := rfl
  rw [Phys.allocNew, Phys.allocNew, hsame]
  cases hb : Phys.bumpNext p.regions p.bumpAlloc with
  | none => rfl
  | some x =>
    obtain ⟨raw, bump⟩ := x
    have hclear := hbump raw bump hb
    change (Phys.new (lay { p with bumpAlloc := bump } fs ps) raw).map _ =
      ((Phys.new { p with bumpAlloc := bump } raw).map _).map _
    rw [new_lay]
    cases hn : Phys.new { p with bumpAlloc := bump } raw with
    | error e => rfl
    | ok x =>
      obtain ⟨g, q⟩ := x
      obtain ⟨rfl, rc, rfl⟩ := Phys.new_rc hn
      simp only [Except.map, lay]
      rw [zero_covered hclear]

variable (fs) in
/-- Frames are handed out from below. -/
theorem physAlloc_lay (hfree : ∀ f, p.nextFree = some f → Clear ps f)
    (hbump : ∀ f bump, Phys.bumpNext p.regions p.bumpAlloc = some (f, bump) → Clear ps f) :
    Phys.alloc (lay p fs ps) = (Phys.alloc p).map fun x => (x.1, lay x.2 fs ps) := by
  rw [Phys.alloc, Phys.alloc, allocFreelist_lay hfree]
  cases hf : Phys.allocFreelist p with
  | error e => rfl
  | ok x =>
    obtain ⟨y, q⟩ := x
    cases y with
    | some f => rfl
    | none =>
      have hq : q = p := by
        rw [Phys.allocFreelist] at hf
        cases hnext : p.nextFree with
        | none =>
          rw [hnext] at hf
          cases hf
          rfl
        | some raw =>
          rw [hnext] at hf
          cases hn : Phys.new { p with nextFree := none } raw with
          | error e =>
            simp only [hn] at hf
            cases hf
          | ok x =>
            simp only [hn] at hf
            cases hf
      subst hq
      exact allocNew_lay hbump

end allocator

/-! Tables below. -/

def laid (m : Machine) (fs : List Nat) (ps : List (Nat × Nat)) : Machine :=
  { m with phys := lay m.phys fs ps }

/-- The words are last entries of pages of the user half, which are empty below. -/
structure Covers (w : World) (ps : List (Nat × Nat)) : Prop where
  slots : ∀ a ∈ ps.map Prod.fst, ∃ t p i, w.place t = some p ∧ p.length = 3 ∧ half p = .user ∧
    i < 512 ∧ a = slot t i
  once : (ps.map Prod.fst).Nodup
  blank : ∀ a ∈ ps.map Prod.fst, w.m.mem a = 0
  filled : ∀ x ∈ ps, x.2 ≠ 0

/-- A machine with the tables of the world. -/
structure Alike (w : World) (m : Machine) : Prop where
  cr3 : m.cr3 = w.m.cr3
  tempPage : m.tempPage = w.m.tempPage
  words : ∀ t p i, w.place t = some p → i < 512 → m.mem (slot t i) = w.m.mem (slot t i)

theorem Alike.refl (w : World) : Alike w w.m := ⟨rfl, rfl, fun _ _ _ _ _ => rfl⟩

section tables

variable {w w' : World} {m : Machine} {fs : List Nat} {ps : List (Nat × Nat)}

theorem covers_nil (w : World) : Covers w [] :=
  ⟨fun _ h => absurd h List.not_mem_nil, List.nodup_nil, fun _ h => absurd h List.not_mem_nil,
    fun _ h => absurd h List.not_mem_nil⟩

/-- Nothing is laid over tables of tables, or over the tables of the kernel. -/
theorem Covers.other (hc : Covers w ps) (hi : Inv w) {t i : Nat} {p : List Nat}
    (ht : w.place t = some p) (hlt : i < 512) (hp : p.length = 3 → half p = .kernel) :
    slot t i ∉ ps.map Prod.fst := by
  intro ha
  obtain ⟨u, q, j, hu, hlen, hhalf, hj, he⟩ := hc.slots _ ha
  obtain ⟨rfl, -⟩ := hi.slot_inj ht hu hlt hj he
  obtain rfl : p = q := Option.some.inj (ht.symm.trans hu)
  rw [hp hlen] at hhalf
  cases hhalf

theorem Covers.clear (hc : Covers w ps) (hi : Inv w) {f : Nat} (hf : PAGE_SIZE ∣ f)
    (hn : w.place f = none) : Clear ps f := by
  intro a ha
  obtain ⟨t, p, i, ht, -, -, hlt, rfl⟩ := hc.slots a ha
  exact hi.slot_outside hf hn ht hlt

theorem Covers.ext {h : Half} (hc : Covers w ps) (he : Ext h w w') : Covers w' ps := by
  refine ⟨fun a ha => ?_, hc.once, fun a ha => ?_, hc.filled⟩
  · obtain ⟨t, p, i, ht, hrest⟩ := hc.slots a ha
    exact ⟨t, p, i, he.places t p ht, hrest⟩
  · obtain ⟨t, p, i, ht, hlen, -, hlt, rfl⟩ := hc.slots a ha
    rw [he.leaves t p i ht hlen hlt]
    exact hc.blank _ ha

theorem Covers.same (hc : Covers w ps) (hs : SameTables w w') : Covers w' ps := by
  refine ⟨fun a ha => ?_, hc.once, fun a ha => ?_, hc.filled⟩
  · rw [hs.place]
    exact hc.slots a ha
  · obtain ⟨t, p, i, ht, -, -, hlt, rfl⟩ := hc.slots a ha
    rw [hs.mem t p i ht hlt]
    exact hc.blank _ ha

variable (hi : Inv w) (hc : Covers w ps) (ha : Alike w m)

include hi hc ha

theorem laid_self : next ((laid m fs ps).mem (slot m.cr3 511)) = some m.cr3 := by
  have hne : slot w.m.cr3 511 ∉ ps.map Prod.fst :=
    hc.other hi hi.loaded (by decide) fun hlen => by cases hlen
  change next (covered ps m.mem (slot m.cr3 511)) = _
  rw [ha.cr3, covered_other hne, ha.words _ _ _ hi.loaded (by decide)]
  exact hi.linked.self _ hi.loaded

variable (fs) in
/-- Tables are found below. -/
theorem laid_find {is : List Nat} (hw : Way is) :
    find next (laid m fs ps).mem m.cr3 is = find next w.m.mem w.m.cr3 is := by
  rw [ha.cr3]
  refine hi.linked.placed.find_congr (fun t p i ht hwi => ?_) hi.loaded hw
  obtain ⟨hlen, hlt⟩ := way_snoc hwi
  refine (covered_other (hc.other hi ht hlt fun h3 => ?_)).trans (ha.words t p i ht hlt)
  omega

theorem laid_load {ent i : Nat} {is : List Nat} (hp : Points ent is i) (hw : Way is) :
    load (laid m fs ps) ent =
      (find next w.m.mem w.m.cr3 is).map fun t => covered ps m.mem (slot t i) := by
  rw [load_points (laid_self hi hc ha) hp, ← laid_find fs hi hc ha hw]
  rfl

theorem laid_store {ent i : Nat} {is : List Nat} (hp : Points ent is i) (hw : Way is) (v : Nat) :
    store (laid m fs ps) ent v = (find next w.m.mem w.m.cr3 is).map fun t =>
      (laid m fs ps).setMem (Function.update (covered ps m.mem) (slot t i) v) := by
  rw [store_points (laid_self hi hc ha) hp, ← laid_find fs hi hc ha hw]
  rfl

/-- The temporary page is used below. -/
theorem laid_viaTemp (ht : TempFree w.m) {p : Phys.PhysMem} {gs : List Nat}
    (hp : ∀ t, w.place t = some (lastTable w.m.tempPage) →
      p.mem (slot t (pml1Index w.m.tempPage)) = w.m.mem (slot t (pml1Index w.m.tempPage))) :
    viaTemp (laid m fs ps) (lay p gs ps) = some (laid { m with phys := p } gs ps) := by
  obtain ⟨t, hf, h0⟩ := ht
  have hway := way_lastTable hi.upper.2
  have hplace := hi.linked.place_last hi.loaded hi.upper.2 hf
  have hlt := pml1Index_lt w.m.tempPage
  have hne : slot t (pml1Index w.m.tempPage) ∉ ps.map Prod.fst :=
    hc.other hi hplace hlt fun _ => if_neg (Nat.not_lt.mpr hi.upper.1)
  have hwalk := points_pml1Entry m.tempPage (laid m fs ps).mem m.cr3 (laid_self hi hc ha)
  have hfind : find next (laid m fs ps).mem m.cr3 [pml4Index m.tempPage, pml3Index m.tempPage,
      pml2Index m.tempPage] = some t := by
    rw [ha.tempPage]
    exact (laid_find _ hi hc ha hway).trans hf
  have hidx : pml1Index m.tempPage = pml1Index w.m.tempPage := by rw [ha.tempPage]
  rw [hfind, Option.map_some, hidx] at hwalk
  have hword : covered ps m.mem (slot t (pml1Index w.m.tempPage)) = 0 := by
    rw [covered_other hne, ha.words t _ _ hplace hlt]
    exact h0
  have hkeep : Function.update (covered ps p.mem) (slot t (pml1Index w.m.tempPage)) 0 =
      covered ps p.mem := by
    rw [← h0, ← hp t hplace, ← (covered_other hne : covered ps p.mem _ = _)]
    exact Function.update_eq_self _ _
  change (walk (laid m fs ps).mem m.cr3 (pml1Entry m.tempPage)).bind _ = _
  rw [hwalk, Option.bind_some]
  change (if covered ps m.mem (slot t (pml1Index w.m.tempPage)) ≠ 0 then _ else _) = _
  rw [if_neg (not_not.mpr hword)]
  change some (Machine.mk { lay p gs ps with mem := Function.update (covered ps p.mem) _ 0 } _ _) = _
  rw [hkeep]
  rfl

end tables

/-- Frames come from below. -/
theorem alloc_laid {w : World} {fs : List Nat} {ps : List (Nat × Nat)} (hi : Inv w)
    (ht : TempFree w.m) (hc : Covers w ps) :
    alloc (laid w.m fs ps) = (alloc w.m).map fun x => (x.1, laid x.2 fs ps) := by
  obtain ⟨free, hphys⟩ := hi.phys
  have hclear : ∀ f, PAGE_SIZE ∣ f → f ∉ w.s.owners → Clear ps f := fun f hf hn =>
    hc.clear hi hf (hi.unowned_no_table hn)
  have hfree : ∀ f, w.m.phys.nextFree = some f → Clear ps f := by
    intro f hf
    have hchain := hphys.chain
    rw [hi.same, hf] at hchain
    cases free with
    | nil => cases hchain
    | cons g rest =>
      obtain rfl := Option.some.inj hchain.1
      obtain ⟨hal, -, -, -, hn⟩ := hphys.freeable f List.mem_cons_self
      exact hclear f hal hn
  have hbump : ∀ f bump, Phys.bumpNext w.m.phys.regions w.m.phys.bumpAlloc = some (f, bump) →
      Clear ps f := by
    intro f bump hf
    rw [← hi.same] at hf
    obtain ⟨-, hal, hfresh, -⟩ := Phys.bumpNext_some hphys.bump hphys.disjoint hf
    exact hclear f hal fun hn => (hphys.frame f hn).2.1 hfresh
  have halloc := physAlloc_lay fs hfree hbump
  have hlaid : (laid w.m fs ps).phys = lay w.m.phys fs ps := rfl
  rw [alloc, alloc, hlaid, halloc]
  cases hx : Phys.alloc w.m.phys with
  | error e => rfl
  | ok x =>
    obtain ⟨y, q⟩ := x
    cases y with
    | error e => rfl
    | ok f =>
      have htemp : ∀ t, w.place t = some (lastTable w.m.tempPage) →
          q.mem (slot t (pml1Index w.m.tempPage)) = w.m.mem (slot t (pml1Index w.m.tempPage)) := by
        intro t hplace
        have hn : f ∉ w.s.owners ∧ PAGE_SIZE ∣ f := by
          rw [← hi.same] at hx
          rcases Phys.alloc_cases hphys with ⟨e, he, -⟩ | ⟨he, -⟩ | ⟨g, r, rest, he, hno, -, hinv⟩
          · cases hx.symm.trans he
          · cases hx.symm.trans he
          · cases hx.symm.trans he
            exact ⟨hno, (hinv.frame f (List.mem_append_left _ List.mem_cons_self)).1⟩
        exact (Phys.alloc_outside hx).2 _ (hi.slot_outside hn.2 (hi.unowned_no_table hn.1) hplace
          (pml1Index_lt _))
      have hbelow : viaTemp w.m q = some { w.m with phys := q } :=
        (hi.viaTemp_iff htemp).mpr ⟨ht, rfl⟩
      have habove := @laid_viaTemp w w.m fs ps hi hc (Alike.refl w) ht q fs htemp
      change (viaTemp (laid w.m fs ps) (lay q fs ps)).map _ = ((viaTemp w.m q).map _).map _
      rw [habove, hbelow]
      rfl

/-- A table is written below. -/
theorem store_laid {w : World} (fs : List Nat) {ps : List (Nat × Nat)} (hi : Inv w)
    (hc : Covers w ps) {ent i : Nat} {is : List Nat} (hp : Points ent is i) (hw : Way (is ++ [i]))
    (v : Nat) :
    store (laid w.m fs ps) ent v = (store w.m ent v).map fun m => laid m fs ps := by
  have hway := way_left _ _ hw
  rw [laid_store hi hc (Alike.refl w) hp hway, hi.store_eq hp]
  cases hf : find next w.m.mem w.m.cr3 is with
  | none => rfl
  | some t =>
    obtain ⟨hlen, hlt⟩ := way_snoc hw
    have hplace : w.place t = some is := hi.linked.placed.place_find hi.loaded hway hf
    have hne : slot t i ∉ ps.map Prod.fst := hc.other hi hplace hlt fun h3 => by omega
    simp only [Option.map_some]
    rw [← covered_update hne]
    rfl

theorem ensureTable_laid {w : World} {fs : List Nat} {ps : List (Nat × Nat)} (hi : Inv w)
    (ht : TempFree w.m) (hc : Covers w ps) {ent i t : Nat} {is : List Nat} (hp : Points ent is i)
    (hw : Way (is ++ [i])) (hf : find next w.m.mem w.m.cr3 is = some t) :
    ensureTable (laid w.m fs ps) ent =
      (ensureTable w.m ent).map fun x => (x.1, laid x.2 fs ps) := by
  have hway := way_left _ _ hw
  obtain ⟨hlen, hlt⟩ := way_snoc hw
  have hplace : w.place t = some is := hi.linked.placed.place_find hi.loaded hway hf
  have hne : slot t i ∉ ps.map Prod.fst := hc.other hi hplace hlt fun h3 => by omega
  rw [ensureTable, ensureTable, laid_load hi hc (Alike.refl w) hp hway, hi.load_eq hp, hf]
  simp only [Option.map_some, Option.bind_some, covered_other hne]
  by_cases h0 : w.m.mem (slot t i) = 0
  · rw [if_pos h0, if_pos h0, alloc_laid hi ht hc]
    cases halloc : alloc w.m with
    | none => rfl
    | some x =>
      obtain ⟨y, m₁⟩ := x
      rcases alloc_spec hi halloc with ⟨rfl, rfl⟩ | ⟨f, q, rfl, rfl, hh⟩
      · rfl
      · have hst := store_laid fs hh.inv (hc.same (hh.sameTables hi)) hp hw
          (f ||| tableFlags)
        change (store (laid (w.hand f q).m fs ps) ent (f ||| tableFlags)).map _ =
          ((store (w.hand f q).m ent (f ||| tableFlags)).map _).map _
        rw [hst]
        cases store (w.hand f q).m ent (f ||| tableFlags) with
        | none => rfl
        | some m₂ => rfl
  · rw [if_neg h0, if_neg h0]
    rfl

/-- All tables on the way to a page are made below. -/
theorem ensureTables_laid {w : World} {fs : List Nat} {ps : List (Nat × Nat)} {virt : Nat}
    (hi : Inv w) (ht : TempFree w.m) (hc : Covers w ps) (hv : pml4Index virt < 511)
    (htop : TopReady w virt) :
    ensureTables (laid w.m fs ps) [pml4Entry virt, pml3Entry virt, pml2Entry virt] =
      (ensureTables w.m [pml4Entry virt, pml3Entry virt, pml2Entry virt]).map
        fun x => (x.1, laid x.2 fs ps) := by
  simp only [ensureTables]
  rw [ensureTable_laid hi ht hc (points_pml4Entry virt) (way_one hv) rfl]
  cases h₁ : ensureTable w.m (pml4Entry virt) with
  | none => rfl
  | some x =>
  obtain ⟨ok₁, m₁⟩ := x
  obtain ⟨w₁, rfl, hi₁, he₁, hok₁⟩ := ensureTable_spec hi (points_pml4Entry virt) (way_one hv)
    rfl (fun _ => htop) h₁
  cases ok₁ with
  | false => rfl
  | true =>
  obtain ⟨t₃, hf₃⟩ := hok₁ rfl
  have ht₁ := he₁.tempFree hi hi₁ ht
  have hc₁ := hc.ext he₁
  simp only [Option.map_some, Option.bind_some]
  rw [ensureTable_laid hi₁ ht₁ hc₁ (points_pml3Entry virt) (way_two hv) hf₃]
  cases h₂ : ensureTable w₁.m (pml3Entry virt) with
  | none => rfl
  | some x =>
  obtain ⟨ok₂, m₂⟩ := x
  obtain ⟨w₂, rfl, hi₂, he₂, hok₂⟩ := ensureTable_spec hi₁ (points_pml3Entry virt) (way_two hv) hf₃
    (fun hnil => by cases hnil) h₂
  cases ok₂ with
  | false => rfl
  | true =>
  obtain ⟨t₂, hf₂⟩ := hok₂ rfl
  have ht₂ := he₂.tempFree hi₁ hi₂ ht₁
  have hc₂ := hc₁.ext he₂
  simp only [Option.map_some, Option.bind_some]
  rw [ensureTable_laid hi₂ ht₂ hc₂ (points_pml2Entry virt) (way_lastTable hv) hf₂]
  cases h₃ : ensureTable w₂.m (pml2Entry virt) with
  | none => rfl
  | some x =>
    obtain ⟨ok₃, m₃⟩ := x
    cases ok₃ with
    | false => rfl
    | true => rfl

/-! The loop of `map_physical_memory`. -/

/-- The tables for a page are made and nothing else; there must be memory for them. -/
def makeTable (m : Machine) (virt : Nat) : Option Machine :=
  (ensureTables m [pml4Entry virt, pml3Entry virt, pml2Entry virt]).bind fun x =>
    if x.1 = true then some x.2 else none

/-- The tables for all pages of a list. -/
def makeTables (m : Machine) (pages : List Nat) : Option Machine := run makeTable m pages

/-- The word that is laid over the last entry of a page to map a frame. -/
def Leaf (fl : Nat) (w : World) (x y : Nat × Nat) : Prop :=
  ∃ t, find next w.m.mem w.m.cr3 (lastTable x.1) = some t ∧
    y = (slot t (pml1Index x.1), x.2 ||| fl)

section loop

variable {w w' : World} {fs : List Nat} {ps : List (Nat × Nat)} {virt f fl : Nat} {m' : Machine}

theorem Leaf.ext {h : Half} {x y : Nat × Nat} (hl : Leaf fl w x y) (he : Ext h w w')
    (hx : pml4Index x.1 < 511) : Leaf fl w' x y := by
  obtain ⟨t, hf, hy⟩ := hl
  exact ⟨t, he.finds _ _ (way_lastTable hx) hf, hy⟩

theorem Ext.sound (he : Ext .user w w') (hw : Sound w) (hi' : Inv w') : Sound w' :=
  ⟨hi', he.full hw.inv hw.full, he.tempFree hw.inv hi' hw.temp⟩

/-- One page: its tables are made, and its entry is laid over them. -/
theorem mapPhys_laid (hw : Sound w) (hc : Covers w ps) (hv : pml4Index virt < 256) (hfl : fl ≠ 0)
    (h : mapPhys (laid w.m fs ps) f virt fl = some m') :
    ∃ w' y, makeTable w.m virt = some w'.m ∧ Ext .user w w' ∧ Sound w' ∧
      Leaf fl w' (virt, f) y ∧ Covers w' (ps ++ [y]) ∧ m' = laid w'.m (fs ++ [f]) (ps ++ [y]) := by
  have hi := hw.inv
  have hv' : pml4Index virt < 511 := by omega
  have hen : w.m.phys.refCountEnabled = true := by
    obtain ⟨free, hphys⟩ := hi.phys
    rw [← hi.same]
    exact hphys.enabled
  obtain ⟨⟨g, q⟩, hn, h⟩ := Option.bind_eq_some_iff.mp h
  obtain ⟨rfl, rfl⟩ := new_laid hen (toOption_some hn)
  obtain ⟨x, hx, he⟩ := Option.bind_eq_some_iff.mp h
  rw [expect_ok he] at hx
  change map (laid w.m (fs ++ [g]) ps) g virt fl = some (.ok (), m') at hx
  obtain ⟨⟨ok, m₁⟩, htabs, hx⟩ := Option.bind_eq_some_iff.mp hx
  have htop := hw.full.topReady hv'
  rw [ensureTables_laid hi hw.temp hc hv' htop] at htabs
  obtain ⟨⟨made, m₂⟩, hbelow, heq⟩ := Option.map_eq_some_iff.mp htabs
  cases heq
  cases made with
  | false =>
    obtain ⟨m₃, -, hx⟩ := Option.map_eq_some_iff.mp hx
    cases hx
  | true =>
  obtain ⟨w', rfl, hi', hext, hfound⟩ := ensureTables_spec hi hv' htop hbelow
  rw [half_user hv] at hext
  obtain ⟨t, hf⟩ := hfound rfl
  have hc' := hc.ext hext
  have hl := hi'.last hv' hf
  have hpoints : Points (pml1Entry virt) (lastTable virt) (pml1Index virt) := points_pml1Entry virt
  obtain ⟨e, hload, hx⟩ := Option.bind_eq_some_iff.mp hx
  rw [laid_load hi' hc' (Alike.refl w') hpoints (way_lastTable hv'), hf] at hload
  have hword : covered ps w'.m.mem (slot t (pml1Index virt)) = e := Option.some.inj hload
  by_cases h0 : e ≠ 0
  · rw [if_pos h0] at hx
    obtain ⟨m₃, -, hx⟩ := Option.map_eq_some_iff.mp hx
    cases hx
  rw [if_neg h0] at hx
  -- a covered word would not be zero
  have hne : slot t (pml1Index virt) ∉ ps.map Prod.fst := by
    intro ha
    obtain ⟨⟨a, e'⟩, hmem, rfl⟩ := List.mem_map.mp ha
    rw [covered_mem hc'.once hmem] at hword
    exact h0 (hword ▸ hc'.filled _ hmem)
  have hblank : w'.m.mem (slot t (pml1Index virt)) = 0 := by
    rw [← (covered_other hne : covered ps w'.m.mem _ = _), hword]
    exact not_not.mp h0
  rw [laid_store hi' hc' (Alike.refl w') hpoints (way_lastTable hv'), hf] at hx
  cases hx
  refine ⟨w', (slot t (pml1Index virt), g ||| fl), ?_, hext, hext.sound hw hi', ⟨t, hf, rfl⟩,
    ⟨?_, ?_, ?_, ?_⟩, ?_⟩
  · rw [makeTable, hbelow]
    rfl
  · intro a ha
    rw [List.map_append, List.mem_append] at ha
    rcases ha with ha | ha
    · exact hc'.slots a ha
    · rw [List.mem_singleton.mp ha]
      exact ⟨t, _, _, hl.1, hl.2.1, half_user hv, hl.2.2, rfl⟩
  · rw [List.map_append]
    refine List.Nodup.append hc'.once (List.nodup_singleton _) fun a ha hb => ?_
    rw [List.mem_singleton.mp hb] at ha
    exact hne ha
  · intro a ha
    rw [List.map_append, List.mem_append] at ha
    rcases ha with ha | ha
    · exact hc'.blank a ha
    · rw [List.mem_singleton.mp ha]
      exact hblank
  · intro x hx
    rcases List.mem_append.mp hx with hx | hx
    · exact hc'.filled x hx
    · rw [List.mem_singleton.mp hx]
      exact fun hz => hfl (Nat.or_eq_zero_iff.mp hz).2
  · simp only [laid, lay, covered_snoc hne]
    rfl

/-- All pages of the loop. -/
theorem mapPhys_loop {xs : List (Nat × Nat)} (hw : Sound w) (hc : Covers w ps)
    (hxs : ∀ x ∈ xs, pml4Index x.1 < 256) (hfl : fl ≠ 0)
    (h : run (PageCalls.mapPhysAs tables fl) (laid w.m fs ps) xs = some m') :
    ∃ w' ys, makeTables w.m (xs.map Prod.fst) = some w'.m ∧ Ext .user w w' ∧ Sound w' ∧
      List.Forall₂ (Leaf fl w') xs ys ∧ Covers w' (ps ++ ys) ∧
      m' = laid w'.m (fs ++ xs.map Prod.snd) (ps ++ ys) := by
  induction xs generalizing w fs ps with
  | nil =>
    cases h
    refine ⟨w, [], rfl, .refl _ w, hw, .nil, ?_, ?_⟩
    · rw [List.append_nil]
      exact hc
    · rw [List.append_nil, List.map_nil, List.append_nil]
  | cons x xs ih =>
    obtain ⟨m₁, h₁, h⟩ := Option.bind_eq_some_iff.mp h
    obtain ⟨w₁, y, hmake, hext, hw₁, hleaf, hc₁, rfl⟩ :=
      mapPhys_laid hw hc (hxs x List.mem_cons_self) hfl h₁
    obtain ⟨w₂, ys, hmakes, hext', hw₂, hleaves, hc₂, rfl⟩ :=
      ih hw₁ hc₁ (fun z hz => hxs z (List.mem_cons_of_mem _ hz)) h
    have hx := hxs x List.mem_cons_self
    refine ⟨w₂, y :: ys, ?_, hext.trans hext', hw₂,
      .cons (hleaf.ext hext' (by omega : pml4Index x.1 < 511)) hleaves, ?_, ?_⟩
    · rw [makeTables, List.map_cons, run_cons, hmake, Option.bind_some]
      exact hmakes
    · rw [List.append_cons]
      exact hc₂
    · simp only [List.map_cons, List.append_assoc, List.singleton_append]

end loop

/-! Entries after the call. -/

/-- The entry of a page is the word that is laid over it. -/
theorem laid_pageWord {w : World} (fs : List Nat) {ps : List (Nat × Nat)} {m : Machine}
    {x y : Nat × Nat} {fl : Nat} (hi : Inv w) (hc : Covers w ps) (ha : Alike w m)
    (hl : Leaf fl w x y) (hy : y ∈ ps) (hx : pml4Index x.1 < 511) :
    pageWord (laid m fs ps).mem m.cr3 x.1 = some (x.2 ||| fl) := by
  obtain ⟨t, hf, rfl⟩ := hl
  have hfind := (laid_find fs hi hc ha (way_lastTable hx)).trans hf
  rw [pageWord, lookup_of_find next_zero hfind]
  exact congrArg some (covered_mem hc.once hy)

/-- The pages of a range with the frames for them. -/
def pairs (v p n : Nat) : List (Nat × Nat) :=
  (PageRange.pages ⟨v, n⟩).zip (PageCalls.physPages p n)

section pairs

variable {v p n : Nat}

theorem pairs_eq (hend : v + n * PAGE_SIZE ≤ MAX_USER_ADDR) :
    pairs v p n = (List.range n).map fun i => (v + i * PAGE_SIZE, (p + i * PAGE_SIZE) % WORD) := by
  have hpages := PageRange.pages_eq (r := ⟨v, n⟩) hend
  rw [pairs, hpages, PageCalls.physPages, List.zip_map']

theorem pairs_fst (hend : v + n * PAGE_SIZE ≤ MAX_USER_ADDR) :
    (pairs v p n).map Prod.fst = PageRange.pages ⟨v, n⟩ := by
  have hpages := PageRange.pages_eq (r := ⟨v, n⟩) hend
  rw [hpages, pairs_eq hend, List.map_map]
  rfl

theorem pairs_snd (hend : v + n * PAGE_SIZE ≤ MAX_USER_ADDR) :
    (pairs v p n).map Prod.snd = PageCalls.physPages p n := by
  rw [pairs_eq hend, List.map_map]
  rfl

end pairs

/-- What a call that returns OK has done: the tables, and an entry for each page. -/
theorem mapPhysicalMemory_laid {w : World} {m' : Machine} {v p n bits x : Nat} (hw : Sound w)
    (h : PageCalls.mapPhysicalMemory tables w.m v p n bits = some (.ok x, m')) :
    ∃ fl w' ys, PageCalls.userPageFlags bits = .ok fl ∧ PAGE_SIZE ∣ v ∧
      v + n * PAGE_SIZE ≤ MAX_USER_ADDR ∧ PageRange.new v n = .ok ⟨v, n⟩ ∧
      makeTables w.m (PageRange.pages ⟨v, n⟩) = some w'.m ∧ Ext .user w w' ∧ Sound w' ∧
      List.Forall₂ (Leaf fl w') (pairs v p n) ys ∧ Covers w' ys ∧
      m' = laid w'.m (PageCalls.physPages p n) ys := by
  rcases PageCalls.mapPhysicalMemory_cases h with ⟨e, he, -⟩ | ⟨range, fl, hn, hv, hfl, h, -⟩
  · cases he
  obtain ⟨rfl, ha, hend⟩ := hw.range_below hn (.inl hv)
  have hfl0 : fl ≠ 0 := (userPageFlags_known hfl).1
  have hempty : laid w.m [] [] = w.m := rfl
  have huser : ∀ x ∈ pairs v p n, pml4Index x.1 < 256 := by
    intro x hx
    have hmem : x.1 ∈ (pairs v p n).map Prod.fst := List.mem_map_of_mem hx
    rw [pairs_fst hend] at hmem
    exact user_index ((PageRange.pages_user (r := ⟨v, n⟩) ha hend).1 x.1 hmem).1
  rw [← hempty] at h
  obtain ⟨w', ys, hmake, hext, hw', hleaves, hc, rfl⟩ :=
    mapPhys_loop hw (covers_nil w) huser hfl0 h
  rw [pairs_fst hend] at hmake
  refine ⟨fl, w', ys, hfl, ha, hend, hn, hmake, hext, hw', hleaves, hc, ?_⟩
  rw [List.nil_append, List.nil_append]
  exact congrArg (laid w'.m · ys) (pairs_snd hend)

/-- Each page of the range is mapped to its frame, with the flags that were asked for. -/
def MappedAs (m : Machine) (v p n bits : Nat) : Prop :=
  ∀ i, i < n → ∃ e, pageWord m.mem m.cr3 (v + i * PAGE_SIZE) = some e ∧
    frame e = p + i * PAGE_SIZE ∧
    flags e = some (PageFlags.PRESENT ||| PageFlags.USER ||| bits)

end Crabos.Page
