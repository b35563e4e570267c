import Crabos.Mem.Window

/-!
# Counting the frames in use (`kernel/src/mem/page.rs`, `kernel/src/mem/phys.rs`)

`each_phys` goes through the tables in `CR3` with four nested loops, and
`init_ref_counts` counts every frame that it yields. The entries are read through
the window. An entry with the address zero counts as none, and nothing below it
is looked at.
-/
namespace Crabos.Page

open Crabos.Words Crabos.Radix Crabos.Phys

/-- `&*base.add(..)`; `none` is a page fault. -/
def fetch (m : Machine) (virt : Nat) : Option Nat := (translate m.mem m.cr3 virt).map m.mem

def forEach : List Nat → (Nat → Option (List Nat)) → Option (List Nat)
  | [], _ => some []
  | i :: is, body => (body i).bind fun l => (forEach is body).map (l ++ ·)

/-- The page of an entry, and those below it. -/
def eachEntry (m : Machine) (addr : Nat) (below : Unit → Option (List Nat)) : Option (List Nat) :=
  (fetch m addr).bind fun e =>
    match rawPhys e with
    | none => some []
    | some phys => (below ()).map (phys :: ·)

/-- The pages that are yielded; counting them does not change the tables. -/
def eachPhys (m : Machine) : Option (List Nat) :=
  (forEach (List.range 511) fun i₄ =>
    eachEntry m (eachPml4 i₄) fun _ => forEach (List.range 512) fun i₃ =>
      eachEntry m (eachPml3 i₄ i₃) fun _ => forEach (List.range 512) fun i₂ =>
        eachEntry m (eachPml2 i₄ i₃ i₂) fun _ => forEach (List.range 512) fun i₁ =>
          eachEntry m (eachPml1 i₄ i₃ i₂ i₁) fun _ => some []).map (m.cr3 :: ·)

/-- Entry `i` of the table at `p` is the word at `a`; the window is left out. -/
structure EntryAt (m : Machine) (p : List Nat) (i a : Nat) : Prop where
  way : Way p
  index : i < 512
  window : p = [] → i ≠ 511
  table : ∃ t, find refers m.mem m.cr3 p = some t ∧ a = slot t i

/-- The entries of all levels with the address of a frame. -/
def entriesOf (m : Machine) (f : Nat) : Set Nat :=
  {a | ∃ p i, EntryAt m p i a ∧ frame (m.mem a) = f}

/-- A tree of tables that are all different. An entry above the last level refers to a table if
its address is not zero. -/
structure Tree (m : Machine) : Prop where
  self : refers (m.mem (slot m.cr3 511)) = some m.cr3
  aligned : PAGE_SIZE ∣ m.cr3
  upper : ∀ p i a, p.length < 3 → EntryAt m p i a → refers (m.mem a) = rawPhys (m.mem a)
  once : ∀ p q t, Way p → Way q → find refers m.mem m.cr3 p = some t →
    find refers m.mem m.cr3 q = some t → p = q

/-- `init_ref_counts` returns, and the counts are the numbers of entries. -/
def CountsEntries (m : Machine) : Prop :=
  ∃ pages q, eachPhys m = some pages ∧ initRefCounts m.phys pages m.cr3 = .ok q ∧
    ∀ n, q.rc n =
      if Managed m.phys.regions (n * PAGE_SIZE) then (entriesOf m (n * PAGE_SIZE)).ncard else 0

/-- The words with an address, in the order in which they are read. -/
def visited (mem : Mem) : Nat → Nat → List Nat → List Nat
  | 0, _, _ => []
  | k + 1, t, range => range.flatMap fun i =>
    if frame (mem (slot t i)) = 0 then []
    else slot t i :: visited mem k (frame (mem (slot t i))) (List.range 512)

section tree

variable {m : Machine} {p q : List Nat} {i j t a : Nat}

theorem dvd_pageAddress (e : Nat) : PAGE_SIZE ∣ pageAddress 0 e := Nat.dvd_mul_left _ _

theorem find_aligned {mem : Mem} {t u : Nat} {is : List Nat} (ht : PAGE_SIZE ∣ t)
    (h : find refers mem t is = some u) : PAGE_SIZE ∣ u := by
  induction is generalizing t with
  | nil =>
    cases h
    exact ht
  | cons i is ih =>
    rw [find] at h
    obtain ⟨v, hv, h⟩ := Option.bind_eq_some_iff.mp h
    obtain ⟨-, -, rfl⟩ := refers_some hv
    exact ih (dvd_pageAddress _) h

/-- A word is an entry of one table only. -/
theorem EntryAt.unique (hm : Tree m) (h : EntryAt m p i a) (h' : EntryAt m q j a) :
    p = q ∧ i = j := by
  obtain ⟨t, ht, rfl⟩ := h.table
  obtain ⟨u, hu, heq⟩ := h'.table
  obtain ⟨rfl, rfl⟩ := slot_inj (show PAGE_SIZE = 8 * 512 from rfl) (find_aligned hm.aligned ht)
    (find_aligned hm.aligned hu) h.index h'.index heq
  exact ⟨hm.once p q t h.way h'.way ht hu, rfl⟩

theorem rawPhys_frame {e : Nat} (h : frame e ≠ 0) : rawPhys e = some (frame e) := if_pos h

/-- An entry with an address leads on. -/
theorem Tree.below (hm : Tree m) (hp : find refers m.mem m.cr3 p = some t) (hw : Way p)
    (hlen : p.length < 3) (hi : i < 512) (hwin : p = [] → i ≠ 511)
    (hf : frame (m.mem (slot t i)) ≠ 0) :
    find refers m.mem m.cr3 (p ++ [i]) = some (frame (m.mem (slot t i))) ∧ Way (p ++ [i]) := by
  have hentry : EntryAt m p i (slot t i) := ⟨hw, hi, hwin, t, hp, rfl⟩
  constructor
  · apply find_snoc hp
    rw [hm.upper p i _ hlen hentry]
    exact rawPhys_frame hf
  · refine ⟨by simp; omega, ?_, ?_⟩
    · intro x hx
      cases List.mem_append.mp hx with
      | inl hx => exact hw.2.1 x hx
      | inr hx =>
        rw [List.mem_singleton.mp hx]
        exact hi
    · cases p with
      | nil => simpa using hwin rfl
      | cons x p => exact hw.2.2

/-- The indices with which the entries of a table are gone through. -/
def IndexRange (p : List Nat) (range : List Nat) : Prop := ∀ i ∈ range, i < 512 ∧ (p = [] → i ≠ 511)

theorem indices_range (p : List Nat) (h : p ≠ []) : IndexRange p (List.range 512) := by
  intro i hi
  exact ⟨List.mem_range.mp hi, fun hp => absurd hp h⟩

/-- From a table on, the entries below it with an address are visited. -/
theorem mem_visited (hm : Tree m) {k : Nat} {range : List Nat}
    (hp : find refers m.mem m.cr3 p = some t) (hw : Way p) (hlen : p.length + k = 4)
    (hrange : IndexRange p range) :
    a ∈ visited m.mem k t range ↔
      frame (m.mem a) ≠ 0 ∧ ∃ r j, EntryAt m (p ++ r) j a ∧ ∃ i ∈ range, (r ++ [j]).head? = some i := by
  induction k generalizing p t range with
  | zero =>
    have hle := hw.1
    omega
  | succ k ih =>
    have hsub : ∀ i, i < 512 → (p = [] → i ≠ 511) → frame (m.mem (slot t i)) ≠ 0 →
        (a ∈ visited m.mem k (frame (m.mem (slot t i))) (List.range 512) ↔
          frame (m.mem a) ≠ 0 ∧ ∃ r j, EntryAt m (p ++ i :: r) j a) := by
      intro i hi hwin hf
      by_cases hk : k = 0
      · subst hk
        constructor
        · intro h
          cases h
        · rintro ⟨-, r, j, h⟩
          have hle := h.way.1
          rw [List.length_append, List.length_cons] at hle
          omega
      · obtain ⟨hnext, hway⟩ := hm.below hp hw (by omega) hi hwin hf
        rw [ih hnext hway (by simp; omega) (indices_range _ (by simp))]
        constructor
        · rintro ⟨ha, r, j, hentry, -⟩
          rw [List.append_assoc] at hentry
          exact ⟨ha, r, j, hentry⟩
        · rintro ⟨ha, r, j, hentry⟩
          rw [List.append_cons] at hentry
          refine ⟨ha, r, j, hentry, ?_⟩
          cases r with
          | nil => exact ⟨j, List.mem_range.mpr hentry.index, rfl⟩
          | cons x r =>
            have hx := hentry.way.2.1 x (by simp)
            exact ⟨x, List.mem_range.mpr hx, rfl⟩
    rw [visited, List.mem_flatMap]
    constructor
    · rintro ⟨i, hi, ha⟩
      obtain ⟨hlt, hwin⟩ := hrange i hi
      split at ha
      · cases ha
      · rename_i hf
        cases ha with
        | head => exact ⟨hf, [], i, by rw [List.append_nil]; exact ⟨hw, hlt, hwin, t, hp, rfl⟩, i, hi, rfl⟩
        | tail _ ha =>
          obtain ⟨hfa, r, j, hentry⟩ := (hsub i hlt hwin hf).mp ha
          exact ⟨hfa, i :: r, j, hentry, i, hi, rfl⟩
    · rintro ⟨hfa, r, j, hentry, i, hi, hhead⟩
      obtain ⟨hlt, hwin⟩ := hrange i hi
      refine ⟨i, hi, ?_⟩
      cases r with
      | nil =>
        cases hhead
        rw [List.append_nil] at hentry
        obtain ⟨u, hu, rfl⟩ := hentry.table
        cases hp.symm.trans hu
        rw [if_neg hfa]
        exact List.mem_cons_self
      | cons x r =>
        cases hhead
        have hstep : refers (m.mem (slot t i)) ≠ none := by
          intro hnone
          obtain ⟨u, hu, -⟩ := hentry.table
          rw [find_append, hp, Option.bind_some, find, hnone] at hu
          cases hu
        have hx : p.length < 3 := by
          have hle := hentry.way.1
          rw [List.length_append, List.length_cons] at hle
          omega
        rw [hm.upper p i _ hx ⟨hw, hlt, hwin, t, hp, rfl⟩] at hstep
        have hf : frame (m.mem (slot t i)) ≠ 0 := by
          intro h0
          exact hstep (if_neg (not_not.mpr h0))
        rw [if_neg hf]
        exact List.mem_cons_of_mem _ ((hsub i hlt hwin hf).mpr ⟨hfa, r, j, hentry⟩)

/-- No word is visited twice. -/
theorem visited_nodup (hm : Tree m) {k : Nat} {range : List Nat}
    (hp : find refers m.mem m.cr3 p = some t) (hw : Way p) (hlen : p.length + k = 4)
    (hrange : IndexRange p range) (hnodup : range.Nodup) : (visited m.mem k t range).Nodup := by
  induction k generalizing p t range with
  | zero => exact List.nodup_nil
  | succ k ih =>
    -- the words below an entry are entries of tables behind it
    have hsub : ∀ i ∈ range, frame (m.mem (slot t i)) ≠ 0 →
        (visited m.mem k (frame (m.mem (slot t i))) (List.range 512)).Nodup ∧
          ∀ a ∈ visited m.mem k (frame (m.mem (slot t i))) (List.range 512),
            ∃ r j, EntryAt m (p ++ i :: r) j a := by
      intro i hi hf
      obtain ⟨hlt, hwin⟩ := hrange i hi
      by_cases hk : k = 0
      · subst hk
        exact ⟨List.nodup_nil, fun a ha => absurd ha List.not_mem_nil⟩
      · obtain ⟨hnext, hway⟩ := hm.below hp hw (by omega) hlt hwin hf
        have hlen' : (p ++ [i]).length + k = 4 := by
          simp
          omega
        have hrange' := indices_range (p ++ [i]) (by simp)
        refine ⟨ih hnext hway hlen' hrange' List.nodup_range, ?_⟩
        intro a ha
        obtain ⟨-, r, j, hentry, -⟩ := (mem_visited hm hnext hway hlen' hrange').mp ha
        rw [List.append_assoc] at hentry
        exact ⟨r, j, hentry⟩
    have hown : ∀ i ∈ range, EntryAt m p i (slot t i) := fun i hi =>
      ⟨hw, (hrange i hi).1, (hrange i hi).2, t, hp, rfl⟩
    rw [visited, List.nodup_flatMap]
    constructor
    · intro i hi
      split
      · exact List.nodup_nil
      · rename_i hf
        obtain ⟨hrest, hbelow⟩ := hsub i hi hf
        rw [List.nodup_cons]
        refine ⟨?_, hrest⟩
        intro hmem
        obtain ⟨r, j, hentry⟩ := hbelow _ hmem
        have hlist := ((hown i hi).unique hm hentry).1
        exact absurd (congrArg List.length hlist) (by simp)
    · apply hnodup.imp_of_mem
      intro i i' hi hi' hne a ha ha'
      simp only at ha ha'
      split at ha
      · cases ha
      rename_i hf
      split at ha'
      · cases ha'
      rename_i hf'
      -- the entries on either side tell the indices
      have hside : ∃ r j, EntryAt m (p ++ r) j a ∧ (r ++ [j]).head? = some i := by
        cases ha with
        | head => exact ⟨[], i, by rw [List.append_nil]; exact hown i hi, rfl⟩
        | tail _ ha =>
          obtain ⟨r, j, hentry⟩ := (hsub i hi hf).2 a ha
          exact ⟨i :: r, j, hentry, rfl⟩
      have hside' : ∃ r j, EntryAt m (p ++ r) j a ∧ (r ++ [j]).head? = some i' := by
        cases ha' with
        | head => exact ⟨[], i', by rw [List.append_nil]; exact hown i' hi', rfl⟩
        | tail _ ha' =>
          obtain ⟨r, j, hentry⟩ := (hsub i' hi' hf').2 a ha'
          exact ⟨i' :: r, j, hentry, rfl⟩
      obtain ⟨r, j, hentry, hhead⟩ := hside
      obtain ⟨r', j', hentry', hhead'⟩ := hside'
      obtain ⟨hpath, rfl⟩ := hentry.unique hm hentry'
      rw [List.append_cancel_left hpath] at hhead
      exact hne (Option.some.inj (hhead.symm.trans hhead'))

/-! The loops. -/

theorem fetch_through {ent n : Nat} (hm : Tree m) (h : Through ent n p i) (hc : Canonical ent)
    (hp : find refers m.mem m.cr3 p = some t) : fetch m ent = some (m.mem (slot t i)) := by
  rw [fetch, h.translate hc hm.self hp]
  rfl

/-- One loop: if its addresses are those of a table, and the loops below it go through the tables
below, it goes through all of them. -/
theorem forEach_visited (hm : Tree m) (hp : find refers m.mem m.cr3 p = some t) {addr : Nat → Nat}
    {n k : Nat} {range : List Nat} {below : Nat → Unit → Option (List Nat)}
    (haddr : ∀ i ∈ range, Through (addr i) n p i ∧ Canonical (addr i))
    (hbelow : ∀ i ∈ range, frame (m.mem (slot t i)) ≠ 0 → below i () =
      some ((visited m.mem k (frame (m.mem (slot t i))) (List.range 512)).map
        fun a => frame (m.mem a))) :
    forEach range (fun i => eachEntry m (addr i) (below i)) =
      some ((visited m.mem (k + 1) t range).map fun a => frame (m.mem a)) := by
  induction range with
  | nil => rfl
  | cons i range ih =>
    have hrest := ih (fun j hj => haddr j (List.mem_cons_of_mem i hj))
      (fun j hj => hbelow j (List.mem_cons_of_mem i hj))
    obtain ⟨hthrough, hc⟩ := haddr i List.mem_cons_self
    rw [visited] at hrest
    rw [forEach, hrest, eachEntry, fetch_through hm hthrough hc hp, visited, List.flatMap_cons,
      List.map_append]
    by_cases hf : frame (m.mem (slot t i)) = 0
    · have hnone : rawPhys (m.mem (slot t i)) = none := if_neg (not_not.mpr hf)
      simp only [Option.bind_some, hnone, Option.map_some, if_pos hf, List.map_nil]
    · simp only [Option.bind_some, rawPhys_frame hf, hbelow i List.mem_cons_self hf,
        Option.map_some, if_neg hf, List.map_cons]

/-- An address with the given indices. -/
def addressOf (i₄ i₃ i₂ i₁ : Nat) : Nat := i₄ * 2 ^ 39 + i₃ * 2 ^ 30 + i₂ * 2 ^ 21 + i₁ * 2 ^ 12

theorem indices_addressOf {i₄ i₃ i₂ i₁ : Nat} (h₄ : i₄ < 512) (h₃ : i₃ < 512) (h₂ : i₂ < 512)
    (h₁ : i₁ < 512) : indices (addressOf i₄ i₃ i₂ i₁) = [i₄, i₃, i₂, i₁] := by
  have e₄ : pml4Index (addressOf i₄ i₃ i₂ i₁) = i₄ := by
    rw [pml4Index, addressOf]
    omega
  have e₃ : pml3Index (addressOf i₄ i₃ i₂ i₁) = i₃ := by
    rw [pml3Index, addressOf]
    omega
  have e₂ : pml2Index (addressOf i₄ i₃ i₂ i₁) = i₂ := by
    rw [pml2Index, addressOf]
    omega
  have e₁ : pml1Index (addressOf i₄ i₃ i₂ i₁) = i₁ := by
    rw [pml1Index, addressOf]
    omega
  rw [indices, e₄, e₃, e₂, e₁]

/-- The addresses of the loops go through the window. -/
theorem through_each {i₄ i₃ i₂ i₁ : Nat} (h₄ : i₄ < 512) (h₃ : i₃ < 512) (h₂ : i₂ < 512)
    (h₁ : i₁ < 512) :
    (Through (eachPml4 i₄) 4 [] i₄ ∧ Canonical (eachPml4 i₄)) ∧
      (Through (eachPml3 i₄ i₃) 3 [i₄] i₃ ∧ Canonical (eachPml3 i₄ i₃)) ∧
      (Through (eachPml2 i₄ i₃ i₂) 2 [i₄, i₃] i₂ ∧ Canonical (eachPml2 i₄ i₃ i₂)) ∧
      (Through (eachPml1 i₄ i₃ i₂ i₁) 1 [i₄, i₃, i₂] i₁ ∧ Canonical (eachPml1 i₄ i₃ i₂ i₁)) := by
  have hindices := indices_addressOf h₄ h₃ h₂ h₁
  obtain ⟨e₄, e₃, e₂, e₁⟩ := each_pmlEntry hindices
  generalize addressOf i₄ i₃ i₂ i₁ = virt at *
  simp only [indices, List.cons.injEq, and_true] at hindices
  obtain ⟨rfl, rfl, rfl, rfl⟩ := hindices
  rw [e₄, e₃, e₂, e₁]
  exact ⟨⟨through_pml4Entry virt, canonical_pmlEntry virt 4⟩,
    ⟨through_pml3Entry virt, canonical_pmlEntry virt 3⟩,
    ⟨through_pml2Entry virt, canonical_pmlEntry virt 2⟩,
    ⟨through_pml1Entry virt, canonical_pmlEntry virt 1⟩⟩

/-- `each_phys` yields the root, and then the addresses in all entries. -/
theorem eachPhys_eq (hm : Tree m) : eachPhys m =
    some (m.cr3 :: (visited m.mem 4 m.cr3 (List.range 511)).map fun a => frame (m.mem a)) := by
  have hzero : 0 < 512 := by decide
  have hlt : ∀ i ∈ List.range 512, i < 512 := fun i hi => List.mem_range.mp hi
  have hlt₄ : ∀ i ∈ List.range 511, i < 512 ∧ i ≠ 511 := by
    intro i hi
    have hi' := List.mem_range.mp hi
    omega
  have hroot : find refers m.mem m.cr3 [] = some m.cr3 := rfl
  rw [eachPhys, forEach_visited (k := 3) hm hroot
    fun i₄ hi₄ => (through_each (hlt₄ i₄ hi₄).1 hzero hzero hzero).1]
  · rfl
  intro i₄ hi₄ hf₄
  obtain ⟨hp₄, hw₄⟩ := hm.below hroot way_nil (by decide) (hlt₄ i₄ hi₄).1 (fun _ => (hlt₄ i₄ hi₄).2) hf₄
  rw [forEach_visited (k := 2) hm hp₄
    fun i₃ hi₃ => (through_each (hlt₄ i₄ hi₄).1 (hlt i₃ hi₃) hzero hzero).2.1]
  intro i₃ hi₃ hf₃
  obtain ⟨hp₃, hw₃⟩ := hm.below hp₄ hw₄ (by simp) (hlt i₃ hi₃) (fun h => by cases h) hf₃
  rw [forEach_visited (k := 1) hm hp₃
    fun i₂ hi₂ => (through_each (hlt₄ i₄ hi₄).1 (hlt i₃ hi₃) (hlt i₂ hi₂) hzero).2.2.1]
  intro i₂ hi₂ hf₂
  obtain ⟨hp₂, hw₂⟩ := hm.below hp₃ hw₃ (by simp) (hlt i₂ hi₂) (fun h => by cases h) hf₂
  rw [forEach_visited (k := 0) hm hp₂
    fun i₁ hi₁ => (through_each (hlt₄ i₄ hi₄).1 (hlt i₃ hi₃) (hlt i₂ hi₂) (hlt i₁ hi₁)).2.2.2]
  intro i₁ hi₁ hf₁
  rfl

theorem indices_root : IndexRange [] (List.range 511) := by
  intro i hi
  have hi' := List.mem_range.mp hi
  exact ⟨by omega, fun _ => by omega⟩

/-- From the root on, these are all entries. -/
theorem visited_root (hm : Tree m) : a ∈ visited m.mem 4 m.cr3 (List.range 511) ↔
    frame (m.mem a) ≠ 0 ∧ ∃ p i, EntryAt m p i a := by
  have hroot : find refers m.mem m.cr3 [] = some m.cr3 := rfl
  have hlen : ([] : List Nat).length + 4 = 4 := rfl
  rw [mem_visited hm hroot way_nil hlen indices_root]
  constructor
  · rintro ⟨hf, r, j, hentry, -⟩
    exact ⟨hf, r, j, hentry⟩
  · rintro ⟨hf, p, i, hentry⟩
    refine ⟨hf, p, i, hentry, ?_⟩
    cases p with
    | nil =>
      have hi := hentry.index
      have hne := hentry.window rfl
      exact ⟨i, List.mem_range.mpr (by omega), rfl⟩
    | cons x p =>
      have hx := hentry.way.2.1 x List.mem_cons_self
      have hne : x ≠ 511 := fun h => hentry.way.2.2 (congrArg some h)
      exact ⟨x, List.mem_range.mpr (by omega), rfl⟩

/-- Each page is yielded once for every entry with its address. -/
theorem count_visited (hm : Tree m) {f : Nat} (hf : f ≠ 0) :
    ((visited m.mem 4 m.cr3 (List.range 511)).map fun a => frame (m.mem a)).count f =
      (entriesOf m f).ncard := by
  have hset : entriesOf m f =
      ((visited m.mem 4 m.cr3 (List.range 511)).filter fun a => frame (m.mem a) = f).toFinset := by
    ext a
    rw [List.coe_toFinset, Set.mem_ofPred_eq, List.mem_filter, decide_eq_true_eq, visited_root hm]
    constructor
    · rintro ⟨p, i, hentry, rfl⟩
      exact ⟨⟨hf, p, i, hentry⟩, rfl⟩
    · rintro ⟨⟨-, p, i, hentry⟩, hfa⟩
      exact ⟨p, i, hentry, hfa⟩
  have hroot : find refers m.mem m.cr3 [] = some m.cr3 := rfl
  have hlen : ([] : List Nat).length + 4 = 4 := rfl
  have hnodup := visited_nodup hm hroot way_nil hlen indices_root List.nodup_range
  rw [hset, Set.ncard_coe_finset, List.toFinset_card_of_nodup (hnodup.filter _),
    List.count_eq_countP, List.countP_map, List.countP_eq_length_filter]
  congr 1

end tree

/-- If the root is below the regions, and no page in use is above the table of counters, the counts
are the numbers of entries. -/
theorem counts_entries {m : Machine} (hm : Tree m) {boundary : Nat} (hroot : m.cr3 < boundary)
    (hregions : ∀ r ∈ m.phys.regions, boundary ≤ r.beginAddr) (hzero : ∀ n, m.phys.rc n = 0)
    (hmax : ∀ f, Managed m.phys.regions f → (entriesOf m f).Nonempty → f < MAX_PHYS_PAGE) :
    CountsEntries m := by
  have hbelow : ∀ f, f ≤ m.cr3 → ¬ Managed m.phys.regions f := by
    rintro f hf ⟨r, hr, hle, -⟩
    have hr' := hregions r hr
    omega
  have hall := eachPhys_eq hm
  generalize hpages : (visited m.mem 4 m.cr3 (List.range 511)).map (fun a => frame (m.mem a)) = pages
    at hall
  have hcount : ∀ f, Managed m.phys.regions f →
      (m.cr3 :: pages ++ [m.cr3]).count f = (entriesOf m f).ncard := by
    intro f hf
    have hne : m.cr3 ≠ f := by
      rintro rfl
      exact hbelow _ (Nat.le_refl _) hf
    have h0 : f ≠ 0 := by
      rintro rfl
      exact hbelow 0 (Nat.zero_le _) hf
    rw [← count_visited hm h0, hpages, List.count_append, List.count_cons_of_ne hne,
      List.count_singleton, if_neg (by simpa using hne), Nat.add_zero]
  have haligned : ∀ f ∈ m.cr3 :: pages ++ [m.cr3], PAGE_SIZE ∣ f := by
    intro f hf
    rw [← hpages] at hf
    simp only [List.cons_append, List.mem_cons, List.mem_append, List.mem_map, List.not_mem_nil,
      or_false] at hf
    rcases hf with rfl | ⟨a, -, rfl⟩ | rfl
    · exact hm.aligned
    · exact Nat.dvd_mul_left _ _
    · exact hm.aligned
  have hle : ∀ f ∈ m.cr3 :: pages ++ [m.cr3], Managed m.phys.regions f → f ≤ MAX_PHYS_PAGE := by
    intro f hf hmanaged
    have hpos := List.count_pos_iff.mpr hf
    rw [hcount f hmanaged] at hpos
    exact (hmax f hmanaged (Set.nonempty_of_ncard_ne_zero (by omega))).le
  have hfold := foldlM_counts (p := m.phys) haligned hle
  have hinit : initRefCounts m.phys (m.cr3 :: pages) m.cr3 = .ok { m.phys with
      refCountEnabled := true
      rc := fun n => m.phys.rc n + if Managed m.phys.regions (n * PAGE_SIZE) then
        (m.cr3 :: pages ++ [m.cr3]).count (n * PAGE_SIZE) else 0 } := by
    rw [initRefCounts, hfold]
    rfl
  refine ⟨m.cr3 :: pages, _, hall, hinit, ?_⟩
  · intro n
    simp only [hzero, Nat.zero_add]
    split
    · rename_i hmanaged
      exact hcount _ hmanaged
    · rfl

/-- They are never, if a page in use is above the table of counters. -/
theorem counts_max {m : Machine} (hm : Tree m) (h : CountsEntries m) {f : Nat} (h0 : f ≠ 0)
    (hf : Managed m.phys.regions f) (hentries : (entriesOf m f).Nonempty) : f ≤ MAX_PHYS_PAGE := by
  obtain ⟨pages, q, hpages, hq, -⟩ := h
  obtain ⟨a, p, i, hentry, rfl⟩ := hentries
  rw [eachPhys_eq hm] at hpages
  cases hpages
  rw [initRefCounts] at hq
  cases hfold : (m.cr3 :: (visited m.mem 4 m.cr3 (List.range 511)).map (fun a => frame (m.mem a)) ++
      [m.cr3]).foldlM incRefForInit m.phys with
  | error e =>
    rw [hfold] at hq
    cases hq
  | ok p =>
    have hmem := List.mem_map_of_mem (f := fun a => frame (m.mem a))
      ((visited_root hm).mpr ⟨h0, _, i, hentry⟩)
    exact foldlM_max hfold _ (List.mem_append_left _ (List.mem_cons_of_mem _ hmem)) hf

/-! A root with one table. -/

/-- The first entry of the root refers to an empty table. -/
def oneTableMem (tab : Nat) : Mem := fun a =>
  if a = 0x1ff8 then 0x1001 else if a = 0x1000 then tab + 3 else 0

def oneTable (tab boundary size : Nat) : Machine where
  phys := ⟨[⟨boundary, boundary + size⟩], [boundary], false, none, fun _ => 0, oneTableMem tab⟩
  cr3 := 0x1000
  tempPage := 0

section oneTable

variable {tab boundary size : Nat}

theorem oneTable_root {i : Nat} (h : i ≠ 511) :
    (oneTable tab boundary size).mem (slot 0x1000 i) = if i = 0 then tab + 3 else 0 := by
  have hlast : slot 0x1000 i ≠ 0x1ff8 := by
    rw [slot]
    omega
  change oneTableMem tab (slot 0x1000 i) = _
  rw [oneTableMem, if_neg hlast]
  by_cases h0 : i = 0
  · rw [h0]
    rfl
  · have hfirst : slot 0x1000 i ≠ 0x1000 := by
      rw [slot]
      omega
    rw [if_neg hfirst, if_neg h0]

theorem oneTable_tab (ha : PAGE_SIZE ∣ tab) (hne : tab ≠ 0x1000) {i : Nat} (hi : i < 512) :
    (oneTable tab boundary size).mem (slot tab i) = 0 := by
  obtain ⟨k, rfl⟩ := ha
  rw [PAGE_SIZE] at hne
  have hlast : slot (PAGE_SIZE * k) i ≠ 0x1ff8 := by
    rw [slot, PAGE_SIZE]
    omega
  have hfirst : slot (PAGE_SIZE * k) i ≠ 0x1000 := by
    rw [slot, PAGE_SIZE]
    omega
  change oneTableMem _ (slot (PAGE_SIZE * k) i) = 0
  rw [oneTableMem, if_neg hlast, if_neg hfirst]

theorem refers_oneTable (ha : PAGE_SIZE ∣ tab) (hlt : tab < 2 ^ 52) : refers (tab + 3) = some tab := by
  obtain ⟨k, rfl⟩ := ha
  rw [refers, if_pos, pageAddress]
  · rw [PAGE_SIZE] at hlt ⊢
    congr 1
    omega
  · rw [Present, Large, PAGE_SIZE]
    omega

/-- The root and the table are all that is found. -/
theorem oneTable_find (ha : PAGE_SIZE ∣ tab) (hne : tab ≠ 0x1000) (hlt : tab < 2 ^ 52)
    {p : List Nat} {t : Nat} (hw : Way p)
    (hp : find refers (oneTable tab boundary size).mem 0x1000 p = some t) :
    p = [] ∧ t = 0x1000 ∨ p = [0] ∧ t = tab := by
  have hzero : refers 0 = none := by decide
  cases p with
  | nil =>
    cases hp
    exact .inl ⟨rfl, rfl⟩
  | cons i p =>
    have hi : i ≠ 511 := fun h => hw.2.2 (congrArg some h)
    rw [find, oneTable_root hi] at hp
    by_cases h0 : i = 0
    · subst h0
      rw [if_pos rfl, refers_oneTable ha hlt, Option.bind_some] at hp
      cases p with
      | nil =>
        cases hp
        exact .inr ⟨rfl, rfl⟩
      | cons j p =>
        rw [find, oneTable_tab ha hne (hw.2.1 j (by simp)), hzero] at hp
        cases hp
    · rw [if_neg h0, hzero] at hp
      cases hp

theorem oneTable_tree (ha : PAGE_SIZE ∣ tab) (h0 : tab ≠ 0) (hne : tab ≠ 0x1000)
    (hlt : tab < 2 ^ 52) : Tree (oneTable tab boundary size) where
  self := by
    have hcr3 : (oneTable tab boundary size).cr3 = 0x1000 := rfl
    have hmem : (oneTable tab boundary size).mem = oneTableMem tab := rfl
    have hword : oneTableMem tab (slot 0x1000 511) = 0x1001 := if_pos rfl
    rw [hcr3, hmem, hword]
    decide
  aligned := ⟨1, rfl⟩
  upper := by
    rintro p i a - hentry
    have hzero : refers 0 = rawPhys 0 := by decide
    obtain ⟨t, hp, rfl⟩ := hentry.table
    cases oneTable_find ha hne hlt hentry.way hp with
    | inl h =>
      obtain ⟨rfl, rfl⟩ := h
      rw [oneTable_root (hentry.window rfl)]
      split
      · have hframe : frame (tab + 3) = tab := by
          obtain ⟨k, rfl⟩ := ha
          rw [frame, PAGE_SIZE]
          omega
        rw [refers_oneTable ha hlt, rawPhys_frame (by rw [hframe]; exact h0), hframe]
      · exact hzero
    | inr h =>
      obtain ⟨rfl, rfl⟩ := h
      rw [oneTable_tab ha hne hentry.index]
      exact hzero
  once := by
    intro p q t hw hw' hp hq
    cases oneTable_find ha hne hlt hw hp with
    | inl h =>
      cases oneTable_find ha hne hlt hw' hq with
      | inl h' => rw [h.1, h'.1]
      | inr h' => exact absurd (h'.2.symm.trans h.2) hne
    | inr h =>
      cases oneTable_find ha hne hlt hw' hq with
      | inl h' => exact absurd (h.2.symm.trans h'.2) hne
      | inr h' => rw [h.1, h'.1]

end oneTable

/-! A tree with tables of all four levels, and a page that is mapped twice. -/

/-- Tables, indices and entries. -/
def fourLevelWords : List (Nat × Nat × Nat) :=
  [(0x1000, 511, 0x1001), (0x1000, 0, 0x200003), (0x200000, 5, 0x201003), (0x201000, 7, 0x202003),
    (0x202000, 9, 0x203003), (0x202000, 10, 0x203003)]

def fourLevelMem : Mem := fun a =>
  ((fourLevelWords.find? fun w => slot w.1 w.2.1 = a).map fun w => w.2.2).getD 0

def fourLevels : Machine where
  phys := ⟨[⟨0x100000, 0x300000⟩], [0x100000], false, none, fun _ => 0, fourLevelMem⟩
  cr3 := 0x1000
  tempPage := 0

def fourLevelTables : List (List Nat × Nat) :=
  [([], 0x1000), ([0], 0x200000), ([0, 5], 0x201000), ([0, 5, 7], 0x202000)]

theorem fourLevelMem_cases (a : Nat) :
    fourLevelMem a = 0 ∨ ∃ w ∈ fourLevelWords, slot w.1 w.2.1 = a ∧ fourLevelMem a = w.2.2 := by
  rw [fourLevelMem]
  cases h : fourLevelWords.find? fun w => slot w.1 w.2.1 = a with
  | none => exact .inl rfl
  | some w =>
    have hslot := List.find?_some h
    exact .inr ⟨w, List.mem_of_find?_eq_some h, of_decide_eq_true hslot, rfl⟩

theorem fourLevels_find {p : List Nat} {t : Nat} (hw : Way p)
    (hp : find refers fourLevelMem 0x1000 p = some t) : (p, t) ∈ fourLevelTables := by
  induction p using List.reverseRecOn generalizing t with
  | nil =>
    cases hp
    decide
  | append_singleton p i ih =>
    rw [find_concat] at hp
    obtain ⟨u, hu, ht⟩ := Option.bind_eq_some_iff.mp hp
    have hmem := ih (way_left _ _ hw) hu
    obtain ⟨hlen, hi⟩ := way_snoc hw
    have hwindow : p = [] → i ≠ 511 := by
      rintro rfl h
      exact hw.2.2 (congrArg some h)
    have hall : ∀ x ∈ fourLevelTables, ∀ w ∈ fourLevelWords, w.1 = x.2 → x.1.length < 3 →
        (x.1 = [] → w.2.1 ≠ 511) → ∀ t ∈ refers w.2.2, (x.1 ++ [w.2.1], t) ∈ fourLevelTables := by
      decide
    have haligned : (∀ x ∈ fourLevelTables, PAGE_SIZE ∣ x.2) ∧
        ∀ w ∈ fourLevelWords, PAGE_SIZE ∣ w.1 ∧ w.2.1 < 512 := by
      decide
    cases fourLevelMem_cases (slot u i) with
    | inl h =>
      have hzero : refers 0 = none := by decide
      rw [h, hzero] at ht
      cases ht
    | inr h =>
      obtain ⟨w, hword, hslot, he⟩ := h
      obtain ⟨hdvd, hlt⟩ := haligned.2 w hword
      have hsize : PAGE_SIZE = 8 * 512 := rfl
      obtain ⟨htable, hindex⟩ := slot_inj hsize hdvd (haligned.1 _ hmem) hlt hi hslot
      rw [he] at ht
      have hfound := hall _ hmem w hword htable hlen (fun h => hindex ▸ hwindow h) t ht
      rwa [hindex] at hfound

theorem fourLevels_tree : Tree fourLevels where
  self := by decide
  aligned := ⟨1, rfl⟩
  upper := by
    intro p i a _ _
    have hall : ∀ w ∈ fourLevelWords, refers w.2.2 = rawPhys w.2.2 := by decide
    change refers (fourLevelMem a) = rawPhys (fourLevelMem a)
    rcases fourLevelMem_cases a with h | ⟨w, hw, -, h⟩
    · rw [h]
      decide
    · rw [h]
      exact hall w hw
  once := by
    intro p q t hw hw' hp hq
    have hall : ∀ x ∈ fourLevelTables, ∀ y ∈ fourLevelTables, x.2 = y.2 → x.1 = y.1 := by decide
    exact hall _ (fourLevels_find hw hp) _ (fourLevels_find hw' hq) rfl

theorem counts_entries_four_levels : CountsEntries fourLevels := by
  have hroot : fourLevels.cr3 < 0x100000 := by decide
  have hregions : ∀ r ∈ fourLevels.phys.regions, 0x100000 ≤ r.beginAddr := by decide
  refine counts_entries fourLevels_tree hroot hregions (fun _ => rfl) ?_
  rintro f - ⟨a, p, i, -, rfl⟩
  have hall : ∀ w ∈ fourLevelWords, frame w.2.2 < MAX_PHYS_PAGE := by decide
  change frame (fourLevelMem a) < MAX_PHYS_PAGE
  rcases fourLevelMem_cases a with h | ⟨w, hw, -, h⟩
  · rw [h]
    decide
  · rw [h]
    exact hall w hw

/-- A table in memory above what the counters cover: counting it is a panic. -/
theorem table_above_counters :
    Tree (oneTable (2 ^ 49) 0x100000 (2 ^ 50)) ∧
      (∀ r ∈ (oneTable (2 ^ 49) 0x100000 (2 ^ 50)).phys.regions, 0x100000 ≤ r.beginAddr) ∧
      (oneTable (2 ^ 49) 0x100000 (2 ^ 50)).cr3 < 0x100000 ∧
      (∀ n, (oneTable (2 ^ 49) 0x100000 (2 ^ 50)).phys.rc n = 0) ∧
      ¬ CountsEntries (oneTable (2 ^ 49) 0x100000 (2 ^ 50)) := by
  have hm : Tree (oneTable (2 ^ 49) 0x100000 (2 ^ 50)) :=
    oneTable_tree (by decide) (by decide) (by decide) (by decide)
  have hentry : EntryAt (oneTable (2 ^ 49) 0x100000 (2 ^ 50)) [] 0 0x1000 :=
    ⟨way_nil, by decide, fun _ => by decide, 0x1000, rfl, rfl⟩
  refine ⟨hm, by decide, by decide, fun _ => rfl, fun h => ?_⟩
  have hle := counts_max (f := 2 ^ 49) hm h (by decide) (by decide) ⟨0x1000, [], 0, hentry, by decide⟩
  exact absurd hle (by decide)

end Crabos.Page
