import Crabos.Mem.PageShare

/-!
# The TLB (`kernel/src/mem/page.rs`)

The functions of `page.rs` again, with the translations that the processor may
have cached: all that the page tables have allowed at some moment, less those
of a page that `invlpg` has removed since, and none from before a write to
`CR3`. Every store and every `invlpg` is a moment of its own. Accessed and
dirty bits are left out.
-/
namespace Crabos.Page

open Crabos.Words Crabos.Radix Crabos.Interface Crabos.User Crabos.Run

/-- The entries on the way to a page, if they are all present. -/
def path (mem : Mem) (cr3 : Nat) (is : List Nat) : Option (List Nat) :=
  (find next mem cr3 is).map fun _ => entries next mem cr3 is

def Machine.path (m : Machine) (virt : Nat) : Option (List Nat) := Page.path m.mem m.cr3 (indices virt)

/-- The translations of addresses that may be cached. -/
abbrev Cache : Type := Nat → List Nat → Prop

structure Cpu where
  m : Machine
  tlb : Cache

/-- The TLB may be filled at any moment. -/
def Cpu.fill (c : Cpu) : Cpu :=
  { c with tlb := fun virt es => c.tlb virt es ∨ c.m.path virt = some es }

/-- Memory or the state of the allocator has changed. -/
def Cpu.set (c : Cpu) (m : Machine) : Cpu := Cpu.fill { c with m := m }

def Cpu.invlpg (c : Cpu) (virt : Nat) : Cpu :=
  Cpu.fill { c with tlb := fun v es => indices v ≠ indices virt ∧ c.tlb v es }

def Cpu.setCr3 (c : Cpu) (cr3 : Nat) : Cpu :=
  Cpu.fill { m := { c.m with cr3 := cr3 }, tlb := fun _ _ => False }

def Cpu.store (c : Cpu) (virt value : Nat) : Option Cpu := (Page.store c.m virt value).map c.set

def Cpu.tempMap (c : Cpu) (phys : Nat) : Option Cpu :=
  (load c.m (pml1Entry c.m.tempPage)).bind fun e =>
    if e ≠ 0 then none
    else (c.store (pml1Entry c.m.tempPage) (phys ||| (PageFlags.PRESENT ||| PageFlags.WRITE))).map
      fun c => c.invlpg c.m.tempPage

def Cpu.tempReset (c : Cpu) : Option Cpu :=
  (c.store (pml1Entry c.m.tempPage) 0).map fun c => c.invlpg c.m.tempPage

/-- The allocator works on a frame between `temp_map` and `temp_reset`. -/
def Cpu.viaTemp (c : Cpu) (phys : Nat) (p : Phys.PhysMem) : Option Cpu :=
  (walk c.m.mem c.m.cr3 (pml1Entry c.m.tempPage)).bind fun a =>
    if c.m.mem a ≠ 0 then none
    else
      let e := phys ||| (PageFlags.PRESENT ||| PageFlags.WRITE)
      let mapped := (c.set (c.m.setMem (Function.update c.m.mem a e))).invlpg c.m.tempPage
      let worked := mapped.set { c.m with phys := { p with mem := Function.update p.mem a e } }
      some ((worked.set { c.m with phys := { p with mem := Function.update p.mem a 0 } }).invlpg
        c.m.tempPage)

def Cpu.alloc (c : Cpu) : Option (Option Nat × Cpu) :=
  match Phys.alloc c.m.phys with
  | .error _ => none
  | .ok (.error _, p) => some (none, c.set { c.m with phys := p })
  | .ok (.ok f, p) => (c.viaTemp f p).map fun c => (some f, c)

def Cpu.drop (c : Cpu) (f : Nat) : Option Cpu :=
  match Phys.decRef c.m.phys f, Phys.drop c.m.phys f with
  | .ok (.inUse, _), .ok p => some (c.set { c.m with phys := p })
  | .ok (.shouldFree, _), .ok p => c.viaTemp f p
  | _, _ => none

/-- A new table at `ent`; `below` is the entry that it makes visible. -/
def Cpu.ensureTable (c : Cpu) (ent below : Nat) : Option (Bool × Cpu) :=
  (load c.m ent).bind fun e =>
    if e = 0 then
      c.alloc.bind fun
        | (none, c) => some (false, c)
        | (some tab, c) => (c.store ent (Phys.intoRaw tab ||| tableFlags)).map fun c =>
          (true, c.invlpg below)
    else some (true, c)

def Cpu.mapFails (c : Cpu) (phys : Nat) (e : MapError) : Option (Except MapError Unit × Cpu) :=
  (c.drop phys).map fun c => (.error e, c)

def Cpu.mapLast (c : Cpu) (phys virt flags : Nat) : Option (Except MapError Unit × Cpu) :=
  (load c.m (pml1Entry virt)).bind fun e =>
    if e ≠ 0 then c.mapFails phys .alreadyMapped
    else (c.store (pml1Entry virt) (Phys.intoRaw phys ||| flags)).map fun c =>
      (.ok (), c.invlpg virt)

def Cpu.ensureTables (c : Cpu) : List (Nat × Nat) → Option (Bool × Cpu)
  | [] => some (true, c)
  | ent :: ents =>
    (c.ensureTable ent.1 ent.2).bind fun
      | (true, c) => c.ensureTables ents
      | (false, c) => some (false, c)

def Cpu.map (c : Cpu) (phys virt flags : Nat) : Option (Except MapError Unit × Cpu) :=
  (c.ensureTables [(pml4Entry virt, pml3Entry virt), (pml3Entry virt, pml2Entry virt),
    (pml2Entry virt, pml1Entry virt)]).bind fun
    | (true, c) => c.mapLast phys virt flags
    | (false, c) => c.mapFails phys .cannotAllocatePageTable

def Cpu.unmap (c : Cpu) (virt : Nat) : Option (Except NotMapped Unit × Cpu) :=
  (checkedPml1Entry c.m virt).bind fun
    | .error e => some (.error e, c)
    | .ok ent =>
      (load c.m ent).bind fun e =>
        match rawPhys e with
        | none => some (.error ⟨⟩, c)
        | some raw =>
          (c.drop (Phys.fromRaw raw)).bind fun c => (c.store ent 0).map fun c =>
            (.ok (), c.invlpg virt)

/-- There is no `invlpg` here. -/
def Cpu.modify (c : Cpu) (virt flags : Nat) : Option (Except NotMapped Unit × Cpu) :=
  (checkedPml1Entry c.m virt).bind fun
    | .error e => some (.error e, c)
    | .ok ent =>
      (load c.m ent).bind fun e => (c.store ent (setFlags e flags)).map fun c => (.ok (), c)

def Cpu.newCtx (c : Cpu) : Option (Option Nat × Cpu) :=
  c.alloc.bind fun
    | (none, c) => some (none, c)
    | (some pml4, c) =>
      (run (copySlot pml4) c.m kernelSlots).bind fun m' =>
      (c.viaTemp pml4 { m'.phys with
        mem := Function.update m'.mem (slot pml4 511) (pml4 ||| PageFlags.PRESENT) }).map
        fun c => (some pml4, c)

def Cpu.setCtx (c : Cpu) (ctx : Nat) : Option Cpu := (c.setCr3 ctx).drop c.m.cr3

/-! The machine does the same with and without the TLB. -/

@[simp] theorem set_m (c : Cpu) (m : Machine) : (c.set m).m = m := rfl

@[simp] theorem invlpg_m (c : Cpu) (virt : Nat) : (c.invlpg virt).m = c.m := rfl

@[simp] theorem setCr3_m (c : Cpu) (cr3 : Nat) : (c.setCr3 cr3).m = { c.m with cr3 := cr3 } := rfl

section erase

variable {c c' : Cpu}

theorem store_m {virt value : Nat} (h : c.store virt value = some c') :
    Page.store c.m virt value = some c'.m := by
  obtain ⟨m, hm, rfl⟩ := Option.map_eq_some_iff.mp h
  exact hm

theorem viaTemp_m {phys : Nat} {p : Phys.PhysMem} (h : c.viaTemp phys p = some c') :
    Page.viaTemp c.m p = some c'.m := by
  obtain ⟨a, ha, h⟩ := Option.bind_eq_some_iff.mp h
  rw [Page.viaTemp, ha, Option.bind_some]
  split at h
  · cases h
  · rename_i h0
    cases h
    rw [if_neg h0]
    rfl

theorem alloc_m {x : Option Nat} (h : c.alloc = some (x, c')) : Page.alloc c.m = some (x, c'.m) := by
  rw [Cpu.alloc] at h
  rw [Page.alloc]
  cases ha : Phys.alloc c.m.phys with
  | error e =>
    rw [ha] at h
    cases h
  | ok r =>
    obtain ⟨r, p⟩ := r
    cases r with
    | error e =>
      rw [ha] at h
      cases h
      rfl
    | ok f =>
      rw [ha] at h
      obtain ⟨c₁, hv, hx⟩ := Option.map_eq_some_iff.mp h
      cases hx
      simp only [viaTemp_m hv, Option.map_some]

theorem drop_m {f : Nat} (h : c.drop f = some c') : Page.drop c.m f = some c'.m := by
  rw [Cpu.drop] at h
  rw [Page.drop]
  cases hd : Phys.decRef c.m.phys f with
  | error e =>
    rw [hd] at h
    cases h
  | ok r =>
    obtain ⟨status, q⟩ := r
    rw [hd] at h
    cases hp : Phys.drop c.m.phys f with
    | error e =>
      rw [hp] at h
      cases status with
      | inUse => cases h
      | shouldFree => cases h
    | ok p =>
      rw [hp] at h
      cases status with
      | inUse =>
        cases h
        rfl
      | shouldFree => exact viaTemp_m h

theorem ensureTable_m {ent below : Nat} {ok : Bool} (h : c.ensureTable ent below = some (ok, c')) :
    Page.ensureTable c.m ent = some (ok, c'.m) := by
  obtain ⟨e, he, h⟩ := Option.bind_eq_some_iff.mp h
  rw [Page.ensureTable, he, Option.bind_some]
  split at h
  · rename_i h0
    obtain ⟨⟨x, c₁⟩, ha, h⟩ := Option.bind_eq_some_iff.mp h
    rw [if_pos h0, alloc_m ha, Option.bind_some]
    cases x with
    | none =>
      cases h
      rfl
    | some tab =>
      obtain ⟨c₂, hs, h⟩ := Option.map_eq_some_iff.mp h
      cases h
      simp only [store_m hs, Option.map_some, invlpg_m]
  · rename_i h0
    cases h
    rw [if_neg h0]

theorem ensureTables_m {ents : List (Nat × Nat)} {ok : Bool} (h : c.ensureTables ents = some (ok, c')) :
    Page.ensureTables c.m (ents.map Prod.fst) = some (ok, c'.m) := by
  induction ents generalizing c with
  | nil =>
    cases h
    rfl
  | cons ent ents ih =>
    obtain ⟨⟨ok₁, c₁⟩, h₁, h⟩ := Option.bind_eq_some_iff.mp h
    rw [List.map_cons, Page.ensureTables, ensureTable_m h₁, Option.bind_some]
    cases ok₁ with
    | false =>
      cases h
      rfl
    | true => exact ih h

theorem mapFails_m {f : Nat} {e : MapError} {r : Except MapError Unit}
    (h : c.mapFails f e = some (r, c')) : Page.mapFails c.m f e = some (r, c'.m) := by
  obtain ⟨c₁, hd, h⟩ := Option.map_eq_some_iff.mp h
  cases h
  rw [Page.mapFails, drop_m hd]
  rfl

theorem map_m {f virt flags : Nat} {r : Except MapError Unit}
    (h : c.map f virt flags = some (r, c')) : Page.map c.m f virt flags = some (r, c'.m) := by
  obtain ⟨⟨ok, c₁⟩, h₁, h⟩ := Option.bind_eq_some_iff.mp h
  have ht := ensureTables_m h₁
  simp only [List.map_cons, List.map_nil] at ht
  rw [Page.map, ht, Option.bind_some]
  cases ok with
  | false => exact mapFails_m h
  | true =>
    obtain ⟨e, he, h⟩ := Option.bind_eq_some_iff.mp h
    simp only [Page.mapLast, he, Option.bind_some]
    split at h
    · rename_i h0
      rw [if_pos h0]
      exact mapFails_m h
    · rename_i h0
      obtain ⟨c₂, hs, h⟩ := Option.map_eq_some_iff.mp h
      cases h
      rw [if_neg h0, store_m hs]
      rfl

theorem unmap_m {virt : Nat} {r : Except NotMapped Unit} (h : c.unmap virt = some (r, c')) :
    Page.unmap c.m virt = some (r, c'.m) := by
  obtain ⟨x, hx, h⟩ := Option.bind_eq_some_iff.mp h
  rw [Page.unmap, hx, Option.bind_some]
  cases x with
  | error e =>
    cases h
    rfl
  | ok ent =>
    obtain ⟨e, he, h⟩ := Option.bind_eq_some_iff.mp h
    simp only [he, Option.bind_some]
    cases hr : rawPhys e with
    | none =>
      rw [hr] at h
      cases h
      rfl
    | some raw =>
      rw [hr] at h
      obtain ⟨c₁, hd, h⟩ := Option.bind_eq_some_iff.mp h
      obtain ⟨c₂, hs, h⟩ := Option.map_eq_some_iff.mp h
      cases h
      simp only [drop_m hd, Option.bind_some, store_m hs, Option.map_some, invlpg_m]

theorem modify_m {virt flags : Nat} {r : Except NotMapped Unit}
    (h : c.modify virt flags = some (r, c')) : Page.modify c.m virt flags = some (r, c'.m) := by
  obtain ⟨x, hx, h⟩ := Option.bind_eq_some_iff.mp h
  rw [Page.modify, hx, Option.bind_some]
  cases x with
  | error e =>
    cases h
    rfl
  | ok ent =>
    obtain ⟨e, he, h⟩ := Option.bind_eq_some_iff.mp h
    obtain ⟨c₁, hs, h⟩ := Option.map_eq_some_iff.mp h
    cases h
    simp only [he, Option.bind_some, store_m hs, Option.map_some]

theorem newCtx_m {x : Option Nat} (h : c.newCtx = some (x, c')) :
    Page.newCtx c.m = some (x, c'.m) := by
  obtain ⟨⟨y, c₁⟩, ha, h⟩ := Option.bind_eq_some_iff.mp h
  rw [Page.newCtx, alloc_m ha, Option.bind_some]
  cases y with
  | none =>
    cases h
    rfl
  | some pml4 =>
    obtain ⟨m', hm, h⟩ := Option.bind_eq_some_iff.mp h
    obtain ⟨c₂, hv, h⟩ := Option.map_eq_some_iff.mp h
    cases h
    simp only [hm, Option.bind_some, viaTemp_m hv, Option.map_some]

theorem setCtx_m {ctx : Nat} (h : c.setCtx ctx = some c') : Page.setCtx c.m ctx = some c'.m :=
  drop_m h

end erase

/-! What keeps the cached translations right. -/

/-- Every cached translation is one that the tables give now. -/
def Cpu.Fresh (c : Cpu) : Prop := ∀ virt es, c.tlb virt es → c.m.path virt = some es

/-- The translations of `m`, except those of the page at `page`, are also translations of `m'`. -/
def Keeps (page : List Nat) (m m' : Machine) : Prop :=
  ∀ virt es, indices virt ≠ page → m.path virt = some es → m'.path virt = some es

theorem path_eq_some {mem : Mem} {r : Nat} {is es : List Nat} :
    path mem r is = some es ↔ ∃ u, find next mem r is = some u ∧ entries next mem r is = es := by
  rw [path, Option.map_eq_some_iff]

/-- An entry that was not present is set. -/
theorem keeps_update {m : Machine} {a : Nat} (h : next (m.mem a) = none) (v : Nat) :
    Keeps [] m (m.setMem (Function.update m.mem a v)) := by
  intro virt es _ hp
  obtain ⟨u, hf, he⟩ := path_eq_some.mp hp
  have hsame : ∀ b u, next (m.mem b) = some u → Function.update m.mem a v b = m.mem b := by
    intro b u hb
    refine Function.update_of_ne ?_ _ _
    rintro rfl
    rw [h] at hb
    cases hb
  obtain ⟨hf', he'⟩ := way_mono hsame hf
  exact path_eq_some.mpr ⟨u, hf', he'.trans he⟩

section linked

variable {place : Nat → Option (List Nat)} {mem mem' : Mem}

/-- A way of at most four entries that may begin in the window: it is as before
if the entries between tables are, and the last one if there are four. -/
theorem Linked.way_same (hl : Linked place mem) {r : Nat} (hr : place r = some [])
    (hlinks : ∀ t p i, place t = some p → p.length < 3 → i < 512 →
      mem' (slot t i) = mem (slot t i)) {is : List Nat} (hlen : is.length ≤ 4)
    (hlt : ∀ i ∈ is, i < 512)
    (hlast : ∀ t p i, place t = some p → p ++ [i] = is → i < 512 →
      mem' (slot t i) = mem (slot t i)) :
    find next mem' r is = find next mem r is ∧ entries next mem' r is = entries next mem r is := by
  induction is with
  | nil => exact ⟨rfl, rfl⟩
  | cons i is ih =>
    rw [List.length_cons] at hlen
    by_cases hi : i = 511
    · subst hi
      have hself := hl.self r hr
      have hword := hlinks r [] 511 hr (by decide) (by decide)
      obtain ⟨hf, he⟩ := ih (by omega) (fun j hj => hlt j (List.mem_cons_of_mem _ hj))
        (fun t p j ht hp hj => by
          refine hlinks t p j ht ?_ hj
          rw [← hp, List.length_append, List.length_singleton] at hlen
          omega)
      rw [find, find, entries, entries, hword, hself]
      exact ⟨hf, congrArg _ he⟩
    · refine hl.placed.way_congr ?_ hr (show [] ++ i :: is = i :: is from rfl) ?_
      · intro t p j js ht hp
        have hj : j < 512 := hlt j (hp ▸ List.mem_append_right _ List.mem_cons_self)
        cases js with
        | nil => exact hlast t p j ht hp hj
        | cons k js =>
          refine hlinks t p j ht ?_ hj
          have h := congrArg List.length hp
          simp only [List.length_append, List.length_cons] at h
          omega
      · refine ⟨?_, fun j hj => hlt j (List.mem_of_mem_dropLast hj), ?_⟩
        · simp only [List.nil_append, List.length_dropLast, List.length_cons]
          omega
        · cases is with
          | nil => simp
          | cons k is => simpa using hi

/-- The words of the tables are as before, except the last entry of a page. -/
theorem Linked.keeps {m m' : Machine} {page : List Nat} (hl : Linked place m.mem)
    (hr : place m.cr3 = some []) (hcr3 : m'.cr3 = m.cr3)
    (hlinks : ∀ t p i, place t = some p → p.length < 3 → i < 512 →
      m'.mem (slot t i) = m.mem (slot t i))
    (hlast : ∀ t p i, place t = some p → p ++ [i] ≠ page → i < 512 →
      m'.mem (slot t i) = m.mem (slot t i)) : Keeps page m m' := by
  intro virt es hne hp
  obtain ⟨u, hf, he⟩ := path_eq_some.mp hp
  obtain ⟨hf', he'⟩ := hl.way_same hr hlinks
    (show (indices virt).length ≤ 4 from Nat.le_refl 4) (indices_lt virt)
    (fun t p i ht hpi => hlast t p i ht (hpi ▸ hne))
  rw [Machine.path, hcr3]
  exact path_eq_some.mpr ⟨u, hf'.trans hf, he'.trans he⟩

end linked

section fresh

variable {c c' : Cpu} {w : World}

theorem Keeps.refl (page : List Nat) (m : Machine) : Keeps page m m := fun _ _ _ h => h

theorem indices_ne_nil (virt : Nat) : indices virt ≠ [] := by simp [indices]

theorem Cpu.Fresh.set (h : c.Fresh) {m : Machine} (hk : Keeps [] c.m m) : (c.set m).Fresh := by
  rintro virt es (hc | hp)
  · exact hk virt es (indices_ne_nil virt) (h virt es hc)
  · exact hp

theorem Cpu.Fresh.invlpg (h : c.Fresh) (virt : Nat) : (c.invlpg virt).Fresh := by
  rintro v es (⟨-, hc⟩ | hp)
  · exact h v es hc
  · exact hp

/-- The entry of a page changes, and then its translation is removed. -/
theorem Cpu.Fresh.clear (h : c.Fresh) {m : Machine} {virt : Nat}
    (hk : Keeps (indices virt) c.m m) : ((c.set m).invlpg virt).Fresh := by
  rintro v es (⟨hne, hc | hp⟩ | hp)
  · exact hk v es hne (h v es hc)
  · exact hp
  · exact hp

theorem setCr3_fresh (c : Cpu) (cr3 : Nat) : (c.setCr3 cr3).Fresh := by
  rintro virt es (hc | hp)
  · exact hc.elim
  · exact hp

/-- The words of all tables are as before. -/
theorem Inv.keeps (hi : Inv w) {m' : Machine} (hcr3 : m'.cr3 = w.m.cr3)
    (hsame : ∀ t p i, w.place t = some p → i < 512 → m'.mem (slot t i) = w.m.mem (slot t i)) :
    Keeps [] w.m m' :=
  hi.linked.keeps hi.loaded hcr3 (fun t p i ht _ hlt => hsame t p i ht hlt)
    fun t p i ht _ hlt => hsame t p i ht hlt

end fresh

end Crabos.Page
