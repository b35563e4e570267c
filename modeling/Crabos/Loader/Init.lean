import Crabos.Fs.FileRead
import Crabos.Syscall

/-!
# The first program (`kernel/src/main.rs`)

`main` reads `init.bin` to `0x1000_0000`, one page after the other. A page is
mapped just before it is read, onto a frame with whatever is in it.
-/
namespace Crabos.Init

open Crabos.Disk Crabos.Fat16 Crabos.User

/-- User memory. -/
structure Space where
  mapped : Nat → Bool
  byte : Nat → UInt8

/-- What memory there is, turn by turn: the bytes of the frame that `phys::alloc`
gives, and whether `page::map` gets what it needs for its tables. -/
structure Supply where
  frame : Nat → Option (Nat → UInt8)
  tables : Nat → Bool

inductive Panic where
  | alloc
  | map
  | read (e : Fault)

def Space.map (s : Space) (addr : Nat) (frame : Nat → UInt8) : Space where
  mapped := Function.update s.mapped addr true
  byte := fun x => if addr ≤ x ∧ x < addr + PAGE_SIZE then frame (x - addr) else s.byte x

/-- `slice::from_raw_parts_mut`. -/
def Space.slice (s : Space) (addr len : Nat) : List UInt8 := (List.range' addr len).map s.byte

/-- The space when the slice at an address has been written. -/
def Space.write (s : Space) (addr : Nat) (buf : List UInt8) : Space :=
  { s with byte := fun x => if addr ≤ x then buf.getD (x - addr) (s.byte x) else s.byte x }

/-- The loop of `main`; `none` is one that has not ended. -/
def readInit (fs : Filesystem) (supply : Supply) :
    Nat → Nat → Nat → Seek → Nat → Space → Option (Except Panic Space)
  | 0, _, _, _, _, _ => none
  | fuel + 1, turn, request, seek, addr, s =>
    match supply.frame turn with
    | none => some (.error .alloc)
    | some frame =>
      if s.mapped addr ∨ supply.tables turn = false then some (.error .map)
      else
        let s := s.map addr frame
        let call := fs.read request seek (s.slice addr PAGE_SIZE)
        match call.result with
        | .error e => some (.error (.read e))
        | .ok read =>
          let s := s.write addr call.buf
          if read < PAGE_SIZE then some (.ok s)
          else readInit fs supply fuel (turn + 1) call.request call.seek (addr + read) s

/-- There is memory for a turn. -/
def Supply.Good (supply : Supply) (turn : Nat) : Prop :=
  (supply.frame turn).isSome ∧ supply.tables turn = true

/-- The bytes are in memory from an address on, on pages that have been mapped
for them, and all other memory is as it was. -/
structure Loaded (s s' : Space) (addr : Nat) (l : List UInt8) : Prop where
  bytes : ∀ i (h : i < l.length), s'.byte (addr + i) = l[i]
  mapped : ∀ a, s'.mapped a = true ↔
    s.mapped a = true ∨ ∃ k ≤ l.length / PAGE_SIZE, a = addr + PAGE_SIZE * k
  others : ∀ x, x < addr ∨ addr + PAGE_SIZE * (l.length / PAGE_SIZE + 1) ≤ x → s'.byte x = s.byte x

section load

variable {fs : Filesystem} {supply : Supply}

theorem page_pos : 0 < PAGE_SIZE := by decide

@[simp] theorem length_slice (s : Space) (addr len : Nat) : (s.slice addr len).length = len := by
  simp [Space.slice]

/-- A page that has been filled with a file and what was on it before. -/
theorem write_byte (s : Space) (addr : Nat) {buf : List UInt8} {i : Nat} (h : i < buf.length) :
    (s.write addr buf).byte (addr + i) = buf[i] := by
  simp [Space.write, h]

theorem write_others (s : Space) {addr x : Nat} {buf : List UInt8} (h : x < addr ∨ addr + buf.length ≤ x) :
    (s.write addr buf).byte x = s.byte x := by
  rw [Space.write]
  by_cases hx : addr ≤ x
  · have hlen : buf.length ≤ x - addr := by omega
    simp [hx, hlen]
  · simp [hx]

theorem map_others (s : Space) {addr x : Nat} (frame : Nat → UInt8) (h : x < addr ∨ addr + PAGE_SIZE ≤ x) :
    (s.map addr frame).byte x = s.byte x := by
  rw [Space.map]
  exact if_neg (by omega)

theorem map_mapped (s : Space) (addr : Nat) (frame : Nat → UInt8) (a : Nat) :
    (s.map addr frame).mapped a = true ↔ a = addr ∨ s.mapped a = true := by
  by_cases h : a = addr
  · simp [Space.map, h]
  · simp [Space.map, h]

/-- The last turn. -/
theorem loaded_short {s : Space} {addr : Nat} {l : List UInt8} (frame : Nat → UInt8) (h : l.length < PAGE_SIZE)
    (rest : List UInt8) (hrest : l.length + rest.length = PAGE_SIZE) :
    Loaded s ((s.map addr frame).write addr (l ++ rest)) addr l := by
  have hdiv : l.length / PAGE_SIZE = 0 := Nat.div_eq_of_lt h
  refine ⟨fun i hi => ?_, fun a => ?_, fun x hx => ?_⟩
  · rw [write_byte _ _ (by simp; omega), List.getElem_append_left hi]
  · change (s.map addr frame).mapped a = true ↔ _
    rw [map_mapped, hdiv]
    constructor
    · rintro (rfl | hm)
      · exact .inr ⟨0, Nat.le_refl 0, rfl⟩
      · exact .inl hm
    · rintro (hm | ⟨k, hk, rfl⟩)
      · exact .inr hm
      · exact .inl (by rw [Nat.le_zero.mp hk]; rfl)
  · rw [hdiv] at hx
    rw [write_others _ (by rw [List.length_append]; omega), map_others _ _ (by omega)]

/-- A turn that reads a whole page, and the turns behind it. -/
theorem loaded_page {s s' : Space} {addr : Nat} {l : List UInt8} (frame : Nat → UInt8)
    (h : PAGE_SIZE ≤ l.length)
    (hrest : Loaded ((s.map addr frame).write addr (l.take PAGE_SIZE)) s' (addr + PAGE_SIZE)
      (l.drop PAGE_SIZE)) : Loaded s s' addr l := by
  have hpage : PAGE_SIZE = 4096 := rfl
  have hlen : (l.take PAGE_SIZE).length = PAGE_SIZE := by simp [h]
  have hdiv : l.length / PAGE_SIZE = (l.drop PAGE_SIZE).length / PAGE_SIZE + 1 := by
    rw [List.length_drop, hpage]
    omega
  refine ⟨fun i hi => ?_, fun a => ?_, fun x hx => ?_⟩
  · by_cases hsmall : i < PAGE_SIZE
    · rw [hrest.others _ (.inl (by omega)), write_byte _ _ (by omega), List.getElem_take]
    · have hbytes := hrest.bytes (i - PAGE_SIZE) (by rw [List.length_drop]; omega)
      have haddr : addr + PAGE_SIZE + (i - PAGE_SIZE) = addr + i := by omega
      have hindex : PAGE_SIZE + (i - PAGE_SIZE) = i := by omega
      simp only [List.getElem_drop, haddr, hindex] at hbytes
      exact hbytes
  · rw [hrest.mapped]
    change ((s.map addr frame).mapped a = true ∨ _) ↔ _
    rw [map_mapped, hdiv]
    constructor
    · rintro ((rfl | hm) | ⟨k, hk, rfl⟩)
      · exact .inr ⟨0, Nat.zero_le _, rfl⟩
      · exact .inl hm
      · exact .inr ⟨k + 1, by omega, by rw [hpage]; omega⟩
    · rintro (hm | ⟨k, hk, rfl⟩)
      · exact .inl (.inr hm)
      · cases k with
        | zero => exact .inl (.inl rfl)
        | succ k => exact .inr ⟨k, by omega, by rw [hpage]; omega⟩
  · rw [hdiv, Nat.mul_add_one] at hx
    rw [hrest.others _ (by omega), write_others _ (by rw [hlen]; omega), map_others _ _ (by omega)]

theorem readInit_at {fuel turn request : Nat} {seek : Seek} {cs : List Nat} {addr : Nat} {s : Space}
    (he : fs.part.ErrorFree) (h : At fs seek cs)
    (hfuel : (remaining fs seek cs).length / PAGE_SIZE < fuel)
    (hgood : ∀ t ≤ (remaining fs seek cs).length / PAGE_SIZE, supply.Good (turn + t))
    (hfree : ∀ t ≤ (remaining fs seek cs).length / PAGE_SIZE, s.mapped (addr + PAGE_SIZE * t) = false) :
    ∃ s', readInit fs supply fuel turn request seek addr s = some (.ok s') ∧
      Loaded s s' addr (remaining fs seek cs) := by
  induction fuel generalizing turn request seek cs addr s with
  | zero => cases hfuel
  | succ fuel ih =>
    obtain ⟨hframe, htables⟩ := hgood 0 (Nat.zero_le _)
    obtain ⟨frame, hframe⟩ := Option.isSome_iff_exists.mp hframe
    have hmapped := hfree 0 (Nat.zero_le _)
    obtain ⟨seek', cs', request', hread, h', hrest⟩ :=
      read_ok he h request ((s.map addr frame).slice addr PAGE_SIZE)
    rw [length_slice] at hread hrest
    rw [Nat.add_zero] at hframe htables
    rw [Nat.mul_zero, Nat.add_zero] at hmapped
    have hcond : ¬ (s.mapped addr = true ∨ supply.tables turn = false) := by simp [hmapped, htables]
    rw [readInit, hframe]
    simp only [if_neg hcond, hread]
    generalize hl : remaining fs seek cs = l at *
    by_cases hshort : l.length < PAGE_SIZE
    · rw [if_pos (by omega), List.take_of_length_le (by omega)]
      refine ⟨_, rfl, loaded_short frame hshort _ ?_⟩
      rw [List.length_drop, length_slice]
      omega
    · have hmin : min PAGE_SIZE l.length = PAGE_SIZE := by omega
      have hnil : ((s.map addr frame).slice addr PAGE_SIZE).drop l.length = [] := by
        apply List.drop_eq_nil_of_le
        rw [length_slice]
        omega
      have hdiv : l.length / PAGE_SIZE = (l.drop PAGE_SIZE).length / PAGE_SIZE + 1 := by
        have hpage : PAGE_SIZE = 4096 := rfl
        rw [List.length_drop, hpage]
        omega
      rw [hmin, if_neg (Nat.lt_irrefl _), hnil, List.append_nil]
      have hgood' : ∀ t ≤ (remaining fs seek' cs').length / PAGE_SIZE, supply.Good (turn + 1 + t) := by
        intro t ht
        rw [hrest] at ht
        have hturn : turn + (t + 1) = turn + 1 + t := by omega
        rw [← hturn]
        exact hgood (t + 1) (by omega)
      have hfree' : ∀ t ≤ (remaining fs seek' cs').length / PAGE_SIZE,
          ((s.map addr frame).write addr (l.take PAGE_SIZE)).mapped (addr + PAGE_SIZE + PAGE_SIZE * t) =
            false := by
        intro t ht
        rw [hrest] at ht
        have hold := hfree (t + 1) (by omega)
        have haddr : addr + (PAGE_SIZE * t + PAGE_SIZE) = addr + PAGE_SIZE + PAGE_SIZE * t := by omega
        rw [Nat.mul_add_one, haddr] at hold
        rw [← Bool.not_eq_true]
        change ¬ (s.map addr frame).mapped _ = true
        have hpos := page_pos
        rw [map_mapped, hold]
        rintro (hsame | hfalse)
        · omega
        · cases hfalse
      obtain ⟨s', hrun, hloaded⟩ := ih h' (by rw [hrest]; omega) hgood' hfree'
      rw [hrest] at hloaded
      exact ⟨s', hrun, loaded_page frame (by omega) hloaded⟩

end load

def INIT_ADDR : Nat := 0x10000000

/-- Without errors of the drive, and with memory for its pages, the loop of `main`
ends, and the whole chain of `init.bin` is in memory from `0x1000_0000` on, on one
page more than it fills; no other page is mapped, and no other byte has changed. -/
theorem init_is_loaded (fs : Filesystem) (supply : Supply) (start : Nat) (cs : List Nat)
    (he : fs.part.ErrorFree) (hspc : 1 ≤ fs.bpb.spc) (hfile : fs.ChainOf (some start) cs)
    (hgood : fs.NoBad cs) (request : Nat) (s : Space)
    (hsupply : ∀ t ≤ (fs.chainBytes cs).length / PAGE_SIZE, supply.Good t)
    (hfree : ∀ t ≤ (fs.chainBytes cs).length / PAGE_SIZE, s.mapped (INIT_ADDR + PAGE_SIZE * t) = false)
    (fuel : Nat) (hfuel : (fs.chainBytes cs).length / PAGE_SIZE < fuel) :
    ∃ s', readInit fs supply fuel 0 request (Seek.start start) INIT_ADDR s = some (.ok s') ∧
      Loaded s s' INIT_ADDR (fs.chainBytes cs) := by
  obtain ⟨hat, hbytes⟩ := at_cluster hspc hfile hgood
  rw [← hbytes] at hsupply hfree hfuel ⊢
  exact readInit_at he hat hfuel (fun t ht => (Nat.zero_add t).symm ▸ hsupply t ht) hfree

/-! The pages in the page map of the kernel. -/

section pages

open Crabos.Interface Crabos.PageCalls Crabos.Syscall

/-- The pages that are mapped are those with an entry in the page map. -/
def Shows (env : Env) (c : Task.Ctx) (s : Space) : Prop :=
  ∀ a, PAGE_SIZE ∣ a → a < MAX_USER_ADDR → (s.mapped a = true ↔ env.entry c a ≠ 0)

variable {env : Env} {c : Task.Ctx}

theorem pageKey_inj {a b : Nat} (ha : PAGE_SIZE ∣ a) (hb : PAGE_SIZE ∣ b) (ha' : a < MAX_USER_ADDR)
    (hb' : b < MAX_USER_ADDR) (h : pageKey c a = pageKey c b) : a = b := by
  obtain ⟨i, rfl⟩ := ha
  obtain ⟨j, rfl⟩ := hb
  have hpage := congrArg Prod.snd h
  simp only [pageKey, PAGE_SIZE, MAX_USER_ADDR] at *
  omega

theorem entry_setEntry {a addr v : Nat} (ha : PAGE_SIZE ∣ a) (hd : PAGE_SIZE ∣ addr) (ha' : a < MAX_USER_ADDR)
    (hd' : addr < MAX_USER_ADDR) :
    (env.setEntry c addr v).entry c a = if a = addr then v else env.entry c a := by
  by_cases h : a = addr
  · rw [if_pos h, setEntry_key env v (by rw [h])]
  · have hkey : pageKey c a ≠ pageKey c addr := fun he => h (pageKey_inj ha hd ha' hd' he)
    rw [if_neg h, setEntry_other env v hkey]

/-- Free pages get their frames one after the other. -/
theorem shows_allocPages {fl : Nat} (hfl : fl ≠ 0) {pages frames : List Nat} {s s' : Space} (hnodup : pages.Nodup)
    (huser : ∀ a ∈ pages, PAGE_SIZE ∣ a ∧ a < MAX_USER_ADDR) (hfree : ∀ a ∈ pages, s.mapped a = false)
    (hframes : pages.length ≤ frames.length) (h : Shows env c s)
    (hs : ∀ a, s'.mapped a = true ↔ s.mapped a = true ∨ a ∈ pages) :
    ∃ p, allocPages (tables c) fl pages ⟨env, frames⟩ = some (.ok OK, p) ∧ Shows p.env c s' := by
  induction pages generalizing env s frames with
  | nil =>
    refine ⟨_, rfl, fun a ha ha' => ?_⟩
    rw [hs, ← h a ha ha']
    simp
  | cons addr pages ih =>
    cases frames with
    | nil => cases hframes
    | cons frame frames =>
      obtain ⟨hd, hd'⟩ := huser addr List.mem_cons_self
      obtain ⟨hnot, hnodup⟩ := List.nodup_cons.mp hnodup
      have hzero : env.entry c addr = 0 := by
        have hmapped := hfree addr List.mem_cons_self
        rw [← Bool.not_eq_true, h addr hd hd', not_not] at hmapped
        exact hmapped
      have hentry : frame ||| fl ≠ 0 := fun he => hfl (Nat.or_eq_zero_iff.mp he).2
      have hnext : Shows (env.setEntry c addr (frame ||| fl)) c (s.map addr fun _ => 0) := by
        intro a ha ha'
        rw [map_mapped, entry_setEntry ha hd ha' hd', h a ha ha']
        by_cases he : a = addr
        · simp [he, hentry]
        · simp [he]
      have hfree' : ∀ a ∈ pages, (s.map addr fun _ => 0).mapped a = false := by
        intro a ha
        rw [← Bool.not_eq_true, map_mapped, hfree a (List.mem_cons_of_mem _ ha)]
        rintro (rfl | hf)
        · exact hnot ha
        · cases hf
      have hs' : ∀ a, s'.mapped a = true ↔ (s.map addr fun _ => 0).mapped a = true ∨ a ∈ pages := by
        intro a
        rw [hs, map_mapped, List.mem_cons, or_assoc, or_left_comm]
      obtain ⟨p, hrun, hshows⟩ := ih hnodup (fun a ha => huser a (List.mem_cons_of_mem _ ha)) hfree'
        (Nat.le_of_succ_le_succ hframes) hnext hs'
      refine ⟨p, ?_, hshows⟩
      have hone : (tables c).allocMap ⟨env, frame :: frames⟩ addr fl =
          some (.ok (), ⟨env.setEntry c addr (frame ||| fl), frames⟩) := if_neg (not_not.mpr hzero)
      rw [allocPages, hone]
      exact hrun

/-- What `main` maps for the file is what the calls of the kernel map, page after page. -/
theorem loaded_shows {s s' : Space} {l : List UInt8} (hl : Loaded s s' INIT_ADDR l) (h : Shows env c s)
    (hfree : ∀ t ≤ l.length / PAGE_SIZE, s.mapped (INIT_ADDR + PAGE_SIZE * t) = false)
    (huser : INIT_ADDR + PAGE_SIZE * (l.length / PAGE_SIZE) < MAX_USER_ADDR) {frames : List Nat}
    (hframes : l.length / PAGE_SIZE + 1 ≤ frames.length) {fl : Nat} (hfl : fl ≠ 0) :
    ∃ p, allocPages (tables c) fl ((List.range (l.length / PAGE_SIZE + 1)).map (INIT_ADDR + PAGE_SIZE * ·))
      ⟨env, frames⟩ = some (.ok OK, p) ∧ Shows p.env c s' := by
  have hmem : ∀ a, a ∈ (List.range (l.length / PAGE_SIZE + 1)).map (INIT_ADDR + PAGE_SIZE * ·) ↔
      ∃ k ≤ l.length / PAGE_SIZE, a = INIT_ADDR + PAGE_SIZE * k := by
    intro a
    simp [eq_comm]
  refine shows_allocPages hfl ?_ (fun a ha => ?_) (fun a ha => ?_) ?_ h fun a => ?_
  · apply List.Nodup.map _ List.nodup_range
    intro i j hij
    exact Nat.eq_of_mul_eq_mul_left page_pos (Nat.add_left_cancel hij)
  · obtain ⟨k, hk, rfl⟩ := (hmem a).mp ha
    have hle := Nat.mul_le_mul_left PAGE_SIZE hk
    exact ⟨(Nat.dvd_add_right (by decide)).mpr (Nat.dvd_mul_right _ _), by omega⟩
  · obtain ⟨k, hk, rfl⟩ := (hmem a).mp ha
    exact hfree k hk
  · rw [List.length_map, List.length_range]
    exact hframes
  · rw [hl.mapped, hmem]

end pages

/-- Memory without an end, full of nines. -/
def nines : Supply := ⟨fun _ => some fun _ => 9, fun _ => true⟩

def emptySpace : Space := ⟨fun _ => false, fun _ => 0⟩

/-- The clusters of the file have eight sectors, so that each fills a page. -/
def pageClusters : Filesystem := { smallVolume 3 1 with bpb := ⟨8, 1, 1, 0, 1⟩ }

theorem pageClusters_file : pageClusters.ChainOf (some 2) [2, 3] :=
  ⟨smallVolume_file.chain, by decide, smallVolume_file.fat, by decide⟩

theorem init_is_loaded_pages :
    ∃ s', readInit pageClusters nines 3 0 0 (Seek.start 2) INIT_ADDR emptySpace = some (.ok s') ∧
      Loaded emptySpace s' INIT_ADDR (pageClusters.chainBytes [2, 3]) ∧
      s'.mapped (INIT_ADDR + 2 * PAGE_SIZE) = true ∧ s'.mapped (INIT_ADDR + 3 * PAGE_SIZE) = false := by
  have hlen : (pageClusters.chainBytes [2, 3]).length / PAGE_SIZE = 2 := by
    rw [chainBytes_length]
    decide
  obtain ⟨s', hrun, hloaded⟩ := init_is_loaded pageClusters nines 2 [2, 3] (fun _ => rfl) (by decide)
    pageClusters_file smallVolume_noBad 0 emptySpace (fun _ _ => ⟨rfl, rfl⟩) (fun _ _ => rfl) 3
    (by rw [hlen]; decide)
  have hmapped := hloaded.mapped
  rw [hlen] at hmapped
  refine ⟨s', hrun, hloaded, (hmapped _).mpr (.inr ⟨2, Nat.le_refl 2, by decide⟩), ?_⟩
  rw [← Bool.not_eq_true, hmapped]
  rintro (h | ⟨k, hk, he⟩)
  · cases h
  · rw [Nat.mul_comm, Nat.add_left_cancel_iff] at he
    have hthree := Nat.eq_of_mul_eq_mul_left page_pos he
    omega

end Crabos.Init
