import Crabos.Mem.PageRun

/-!
# Tables of the user half

All PML4s share the tables of the kernel half. A table of the user half is
reached from one PML4 only, and each function of `page.rs` keeps it so: a new
table has the entry that it was made for and no other, and the user half of a
new PML4 is empty.
-/
namespace Crabos.Page

open Crabos.Words Crabos.Radix Crabos.Interface Crabos.User Crabos.Run

variable {w w' : World}

/-- A table of the user half is reached from one PML4 only. -/
def Split (mem : Mem) (roots : List Nat) : Prop :=
  ∀ a ∈ roots, ∀ b ∈ roots, ∀ is t, is ≠ [] → Way is → half is = .user →
    find next mem a is = some t → find next mem b is = some t → a = b

section split

variable {mem mem' : Mem} {roots : List Nat}

theorem Split.congr (h : Split mem roots)
    (hfind : ∀ r ∈ roots, ∀ is, Way is → find next mem' r is = find next mem r is) :
    Split mem' roots := by
  intro a ha b hb is t h0 hw hu hfa hfb
  rw [hfind a ha is hw] at hfa
  rw [hfind b hb is hw] at hfb
  exact h a ha b hb is t h0 hw hu hfa hfb

theorem Split.subset {roots' : List Nat} (h : Split mem roots) (hsub : roots' ⊆ roots) :
    Split mem roots' :=
  fun a ha b hb => h a (hsub ha) b (hsub hb)

theorem half_left {p : List Nat} {i : Nat} (h0 : p ≠ []) : half (p ++ [i]) = half p := by
  cases p with
  | nil => exact absurd rfl h0
  | cons j p => rfl

theorem SameTables.split (h : SameTables w w') (hi : Inv w)
    (hroots : ∀ r ∈ roots, w.place r = some []) (hs : Split w.m.mem roots) :
    Split w'.m.mem roots :=
  hs.congr fun r hr _ hw => h.find hi (hroots r hr) hw

theorem OneSlot.split {t i : Nat} {p : List Nat} (h : OneSlot w w' t i p) (hi : Inv w)
    (hroots : ∀ r ∈ roots, w.place r = some []) (hs : Split w.m.mem roots) :
    Split w'.m.mem roots :=
  hs.congr fun r hr _ hw => h.find hi (hroots r hr) hw

variable {place : Nat → Option (List Nat)} {f t i : Nat} {p : List Nat}

/-- Nothing but its parent leads to a new table. -/
theorem NewTable.parent_of_find (h : NewTable place mem mem' f t i p) (hl : Linked place mem)
    (hl' : Linked (Function.update place f (some (p ++ [i]))) mem') {r : Nat} {is : List Nat}
    (hr : place r = some []) (hw : Way is) (hf : find next mem' r is = some f) :
    is = p ++ [i] ∧ find next mem r p = some t := by
  have hplace := hl'.placed.place_find (h.old hr) hw hf
  rw [Function.update_self, List.nil_append] at hplace
  cases hplace
  rw [find_concat] at hf
  obtain ⟨u, hu, hf⟩ := Option.bind_eq_some_iff.mp hf
  have hp := way_left p [i] h.way
  rcases h.find_cases hl hr hp hu with rfl | hold
  · -- the new table is empty
    rw [h.cleared i (way_snoc h.way).2] at hf
    cases hf
  refine ⟨rfl, ?_⟩
  have hpu : place u = some p := hl.placed.place_find hr hp hold
  by_cases hut : u = t
  · rw [hold, hut]
  · rw [h.other u p i hpu (way_snoc h.way).2 fun hx => hut hx.1] at hf
    exact absurd (h.fresh.symm.trans (hl.placed.child u p i f hpu h.way hf)) (by simp)

theorem NewTable.split (h : NewTable place mem mem' f t i p) (hl : Linked place mem)
    (hl' : Linked (Function.update place f (some (p ++ [i]))) mem')
    (hroots : ∀ r ∈ roots, place r = some []) (hs : Split mem roots) : Split mem' roots := by
  intro a ha b hb is u h0 hw hu hfa hfb
  by_cases huf : u = f
  · subst huf
    obtain ⟨rfl, hta⟩ := h.parent_of_find hl hl' (hroots a ha) hw hfa
    obtain ⟨-, htb⟩ := h.parent_of_find hl hl' (hroots b hb) hw hfb
    by_cases hp : p = []
    · subst hp
      cases hta
      cases htb
      rfl
    · rw [half_left hp] at hu
      exact hs a ha b hb p t hp (way_left p [i] hw) hu hta htb
  · have hold : ∀ r ∈ roots, find next mem' r is = some u → find next mem r is = some u := by
      intro r hr hf
      exact (h.find_cases hl (hroots r hr) hw hf).resolve_left huf
    exact hs a ha b hb is u h0 hw hu (hold a ha hfa) (hold b hb hfb)

end split

section functions

variable {roots : List Nat} {f virt fl : Nat}

theorem TableEnd.split {t i : Nat} {is : List Nat} {ok : Bool} (h : TableEnd w t i is ok w')
    (hi : Inv w) (ht : w.place t = some is) (hw : Way (is ++ [i]))
    (hroots : ∀ r ∈ roots, w.place r = some []) (hs : Split w.m.mem roots) :
    Split w'.m.mem roots := by
  cases h with
  | found entry => exact hs
  | full entry taken => exact hs
  | made entry taken handed inv leads =>
    have hnew := hi.newTable handed ht hw entry
    exact hnew.split handed.inv.linked inv.linked hroots
      ((handed.sameTables hi).split hi hroots hs)

theorem ensureTable_split (hi : Inv w) {ent t i : Nat} {is : List Nat} {ok : Bool} {m' : Machine}
    (hp : Points ent is i) (hw : Way (is ++ [i])) (hf : find next w.m.mem w.m.cr3 is = some t)
    (hroot : is = [] → 256 ≤ i → w.m.mem (slot w.m.cr3 i) = 0 →
      ∀ r, w.place r = some [] → r = w.m.cr3)
    (hroots : ∀ r ∈ roots, w.place r = some []) (hs : Split w.m.mem roots)
    (h : ensureTable w.m ent = some (ok, m')) : Split m'.mem roots := by
  have ht : w.place t = some is := hi.linked.placed.place_find hi.loaded (way_left _ _ hw) hf
  obtain ⟨w', rfl, hend⟩ := ensureTable_ends hi hp hw hf hroot h
  exact hend.split hi ht hw hroots hs

theorem ensureTables_split (hi : Inv w) {ok : Bool} {m' : Machine} (hv : pml4Index virt < 511)
    (htop : TopReady w virt) (hroots : ∀ r ∈ roots, w.place r = some [])
    (hs : Split w.m.mem roots)
    (h : ensureTables w.m [pml4Entry virt, pml3Entry virt, pml2Entry virt] = some (ok, m')) :
    Split m'.mem roots := by
  obtain ⟨⟨ok₁, m₁⟩, h₁, h⟩ := Option.bind_eq_some_iff.mp h
  have hs₁ := ensureTable_split hi (points_pml4Entry virt) (way_one hv) rfl (fun _ => htop) hroots hs h₁
  obtain ⟨w₁, rfl, hi₁, he₁, hok₁⟩ := ensureTable_spec hi (points_pml4Entry virt) (way_one hv)
    rfl (fun _ => htop) h₁
  cases ok₁ with
  | false =>
    cases h
    exact hs₁
  | true =>
  obtain ⟨t₃, hf₃⟩ := hok₁ rfl
  obtain ⟨⟨ok₂, m₂⟩, h₂, h⟩ := Option.bind_eq_some_iff.mp h
  have hroots₁ : ∀ r ∈ roots, w₁.place r = some [] := fun r hr => he₁.places r [] (hroots r hr)
  have hs₂ := ensureTable_split hi₁ (points_pml3Entry virt) (way_two hv) hf₃
    (fun hnil => by cases hnil) hroots₁ hs₁ h₂
  obtain ⟨w₂, rfl, hi₂, he₂, hok₂⟩ := ensureTable_spec hi₁ (points_pml3Entry virt) (way_two hv) hf₃
    (fun hnil => by cases hnil) h₂
  cases ok₂ with
  | false =>
    cases h
    exact hs₂
  | true =>
  obtain ⟨t₂, hf₂⟩ := hok₂ rfl
  obtain ⟨⟨ok₃, m₃⟩, h₃, h⟩ := Option.bind_eq_some_iff.mp h
  have hroots₂ : ∀ r ∈ roots, w₂.place r = some [] := fun r hr => he₂.places r [] (hroots₁ r hr)
  have hs₃ := ensureTable_split hi₂ (points_pml2Entry virt) (way_lastTable hv) hf₂
    (fun hnil => by cases hnil) hroots₂ hs₂ h₃
  cases ok₃ with
  | false =>
    cases h
    exact hs₃
  | true =>
    cases h
    exact hs₃

/-- The frame is a `Phys` of the caller, or it is not counted. -/
def Givable (w : World) (f : Nat) : Prop := Loose w f ∨ ¬ Phys.Managed w.m.phys.regions f

theorem Ext.givable {h : Half} (he : Ext h w w') (hf : Givable w f) : Givable w' f :=
  hf.imp he.loose (he.regions ▸ ·)

theorem mapFails_split (hi : Inv w) {e : MapError} {r : Except MapError Unit} {m' : Machine}
    (hf : Givable w f) (hroots : ∀ r ∈ roots, w.place r = some []) (hs : Split w.m.mem roots)
    (h : mapFails w.m f e = some (r, m')) : Split m'.mem roots := by
  rcases hf with hf | hf
  · obtain ⟨p, rfl, rfl, hdr⟩ := mapFails_spec hi hf h
    exact hdr.sameTables.split hi hroots hs
  · simp only [mapFails, drop_foreign hf] at h
    cases h
    exact hs

theorem map_split (hi : Inv w) {r : Except MapError Unit} {m' : Machine}
    (hv : pml4Index virt < 511) (htop : TopReady w virt) (hf : Givable w f)
    (hroots : ∀ r ∈ roots, w.place r = some []) (hs : Split w.m.mem roots)
    (h : map w.m f virt fl = some (r, m')) : Split m'.mem roots := by
  obtain ⟨⟨ok, m₁⟩, h₁, h⟩ := Option.bind_eq_some_iff.mp h
  have hs₁ := ensureTables_split hi hv htop hroots hs h₁
  obtain ⟨w₁, rfl, hi₁, hext, hok⟩ := ensureTables_spec hi hv htop h₁
  have hroots₁ : ∀ r ∈ roots, w₁.place r = some [] := fun r hr => hext.places r [] (hroots r hr)
  cases ok with
  | false => exact mapFails_split hi₁ (hext.givable hf) hroots₁ hs₁ h
  | true =>
    obtain ⟨t, ht⟩ := hok rfl
    simp only [mapLast, hi₁.load_last ht, Option.bind_some] at h
    split at h
    · exact mapFails_split hi₁ (hext.givable hf) hroots₁ hs₁ h
    · rw [hi₁.store_last ht] at h
      cases h
      exact (hi₁.write_oneSlot (hi₁.last hv ht) _).split hi₁ hroots₁ hs₁

theorem UnmapEnd.split {r : Except NotMapped Unit} (h : UnmapEnd w virt r w') (hi : Inv w)
    (hv : pml4Index virt < 511) (hroots : ∀ r ∈ roots, w.place r = some [])
    (hs : Split w.m.mem roots) : Split w'.m.mem roots := by
  cases h with
  | fails word none => exact hs
  | done last entry some managed dropped =>
    exact (clear_oneSlot hi (hi.last hv last) dropped).split hi hroots hs
  | foreign last some outside => exact (hi.write_oneSlot (hi.last hv last) 0).split hi hroots hs

theorem ModifyEnd.split {r : Except NotMapped Unit} (h : ModifyEnd w virt fl r w') (hi : Inv w)
    (hv : pml4Index virt < 511) (hroots : ∀ r ∈ roots, w.place r = some [])
    (hs : Split w.m.mem roots) : Split w'.m.mem roots := by
  cases h with
  | fails word => exact hs
  | done last entry some => exact (setEntry_oneSlot hi (hi.last hv last) _).split hi hroots hs

/-- The user half of a new PML4 is empty. -/
theorem NewRoot.split {mem : Mem} (h : NewRoot w f mem) (hi : Inv w)
    (hroots : ∀ r ∈ roots, w.place r = some []) (hs : Split w.m.mem roots) :
    Split mem (f :: roots) := by
  have hempty : ∀ is t, is ≠ [] → Way is → half is = .user → find next mem f is ≠ some t := by
    intro is t h0 hw hu hf
    cases is with
    | nil => exact h0 rfl
    | cons i is =>
      have hlt : i < 256 := by
        by_contra hx
        rw [half, if_neg hx] at hu
        cases hu
      rw [find, h.user i hlt, next_zero] at hf
      cases hf
  have hold : ∀ r ∈ roots, ∀ is, Way is → find next mem r is = find next w.m.mem r is :=
    fun r hr is hw => hi.linked.placed.find_congr
      (fun t p i ht hwi => h.other hi ht (way_snoc hwi).2) (hroots r hr) hw
  intro a ha b hb is t h0 hw hu hfa hfb
  rcases List.mem_cons.mp ha with rfl | ha
  · exact absurd hfa (hempty is t h0 hw hu)
  rcases List.mem_cons.mp hb with rfl | hb
  · exact absurd hfb (hempty is t h0 hw hu)
  · exact hs.congr hold a ha b hb is t h0 hw hu hfa hfb

end functions

end Crabos.Page
