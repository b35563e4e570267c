import Crabos.Mem.Validated

/-!
# Calls that run out of memory

What the allocator can still hand out is the free list and the pages that no
bump pointer has reached. A page needs a frame of its own, and one for each
table that is missing on its way; so it is known beforehand which page of a
call is the first to fail.
-/
namespace Crabos.Page

open Crabos.Words Crabos.Radix Crabos.Interface Crabos.User Crabos.Run

/-! Frames that are left. -/

/-- The pages of the regions from the bump pointers on. -/
def room : List Phys.PhysRegion → List Nat → Nat
  | region :: regions, alloc :: bump => (region.endAddr - alloc) / PAGE_SIZE + room regions bump
  | _, _ => 0

/-- The allocator has this many frames left. -/
def Available (p : Phys.PhysMem) (n : Nat) : Prop :=
  ∃ free, FreeList p free ∧ free.length + room p.regions p.bumpAlloc = n

theorem Available.unique {p : Phys.PhysMem} {n n' : Nat} (h : Available p n)
    (h' : Available p n') : n = n' := by
  obtain ⟨free, hfree, rfl⟩ := h
  obtain ⟨free', hfree', rfl⟩ := h'
  rw [Linked.chain_unique hfree hfree']

theorem room_zero {regions : List Phys.PhysRegion} {bump : List Nat}
    (h : ∀ rb ∈ regions.zip bump, rb.1.endAddr ≤ rb.2) : room regions bump = 0 := by
  induction regions generalizing bump with
  | nil => rfl
  | cons region regions ih =>
    cases bump with
    | nil => rfl
    | cons alloc bump =>
      have hle : region.endAddr ≤ alloc := h (region, alloc) List.mem_cons_self
      rw [room, ih fun rb hrb => h rb (List.mem_cons_of_mem _ hrb), Nat.sub_eq_zero_of_le hle]
      rfl

theorem room_some {regions : List Phys.PhysRegion} {bump bump' : List Nat} {raw : Nat}
    (hb : List.Forall₂ Phys.BumpOk regions bump)
    (h : Phys.bumpNext regions bump = some (raw, bump')) :
    room regions bump' + 1 = room regions bump := by
  induction hb generalizing raw bump' with
  | nil => cases h
  | @cons region alloc regions bump hok hb ih =>
    rw [Phys.bumpNext] at h
    split at h
    · obtain ⟨⟨raw₁, bump₁⟩, hnext, he⟩ := Option.map_eq_some_iff.mp h
      cases he
      rw [room, room, ← ih hnext]
      rfl
    · rename_i hlt
      cases h
      have hpage := Phys.page_le hok.bump_aligned hok.end_aligned (Nat.not_le.mp hlt)
      have hdiv : (region.endAddr - alloc) / PAGE_SIZE =
          (region.endAddr - (alloc + PAGE_SIZE)) / PAGE_SIZE + 1 := by
        rw [← Nat.add_div_right _ (by decide : 0 < PAGE_SIZE)]
        congr 1
        omega
      rw [room, room, hdiv]
      omega

section counting

variable {w w' : World} {n : Nat}

theorem Inv.available (hi : Inv w) :
    Available w.m.phys (w.s.freed.length + room w.m.phys.regions w.m.phys.bumpAlloc) :=
  ⟨w.s.freed, hi.freeList, rfl⟩

/-- The allocator fails only when nothing is left. -/
theorem alloc_none (hi : Inv w) {m' : Machine} (h : alloc w.m = some (none, m'))
    (hn : Available w.m.phys n) : n = 0 := by
  obtain ⟨free, hphys⟩ := hi.phys
  have halloc := Phys.alloc_cases hphys
  rw [hi.same] at halloc
  rw [alloc] at h
  rcases halloc with ⟨e, ha, -⟩ | ⟨-, hnext, hend⟩ | ⟨f, q, rest, ha, -, -, -⟩
  · rw [ha] at h
    cases h
  · have hempty : FreeList w.m.phys [] := hnext
    exact hn.unique ⟨[], hempty, by rw [room_zero hend]; rfl⟩
  · rw [ha] at h
    obtain ⟨m₁, -, hx⟩ := Option.map_eq_some_iff.mp h
    cases hx

/-- A frame that is handed out is one less. -/
theorem alloc_some (hi : Inv w) {f : Nat} {m' : Machine} (h : alloc w.m = some (some f, m'))
    (hn : Available w.m.phys n) :
    (w.s.freed.erase f).length + room m'.phys.regions m'.phys.bumpAlloc + 1 = n := by
  obtain ⟨free, hphys⟩ := hi.phys
  have hfreed : FreeList w.m.phys w.s.freed := hi.freeList
  rw [hn.unique hi.available]
  rw [alloc] at h
  cases ha : Phys.alloc w.m.phys with
  | error e =>
    rw [ha] at h
    cases h
  | ok x =>
  obtain ⟨r, q⟩ := x
  rw [ha] at h
  cases r with
  | error e => cases h
  | ok g =>
  obtain ⟨m₁, hvia, hx⟩ := Option.map_eq_some_iff.mp h
  cases hx
  have hbump : m'.phys.regions = q.regions ∧ m'.phys.bumpAlloc = q.bumpAlloc := by
    obtain ⟨a, -, hvia⟩ := Option.bind_eq_some_iff.mp hvia
    split at hvia
    · cases hvia
    · cases hvia
      exact ⟨rfl, rfl⟩
  rw [hbump.1, hbump.2]
  rcases Phys.alloc_ok ha with ⟨rc, hnext, rfl⟩ | ⟨bump, rc, hnext, hb, rfl⟩
  · -- the head of the free list
    rw [FreeList, hnext] at hfreed
    cases hlist : w.s.freed with
    | nil =>
      rw [hlist] at hfreed
      cases hfreed
    | cons g' rest =>
      rw [hlist] at hfreed
      cases hfreed.1
      rw [List.erase_cons_head, List.length_cons]
      exact Nat.add_right_comm _ _ _
  · rw [FreeList, hnext] at hfreed
    have hnil : w.s.freed = [] := Linked.chain_unique hfreed rfl
    rw [← hi.same] at hb ⊢
    have hroom := room_some hphys.bump hb
    rw [hnil]
    simp only [List.erase_nil, List.length_nil]
    omega

theorem Handed.available {f : Nat} {q : Phys.PhysMem} (hh : Handed w f q) (hi : Inv w)
    (h : alloc w.m = some (some f, (w.hand f q).m)) (hn : Available w.m.phys n) :
    ∃ k, n = k + 1 ∧ Available (w.hand f q).m.phys k :=
  ⟨_, (alloc_some hi h hn).symm, hh.inv.available⟩

/-- A new table is one frame less; if none is made, none was needed or none is left. -/
theorem TableEnd.available {t i : Nat} {is : List Nat} {ok : Bool} (h : TableEnd w t i is ok w')
    (hi : Inv w) (hn : Available w.m.phys n) :
    (w.m.mem (slot t i) ≠ 0 ∧ ok = true ∧ w' = w) ∨
    (w.m.mem (slot t i) = 0 ∧ ok = false ∧ n = 0) ∨
    (w.m.mem (slot t i) = 0 ∧ ok = true ∧ ∃ k, n = k + 1 ∧ Available w'.m.phys k) := by
  cases h with
  | found h0 => exact .inl ⟨h0, rfl, rfl⟩
  | full h0 ha => exact .inr (.inl ⟨h0, rfl, alloc_none hi ha hn⟩)
  | @made f q h0 ha hh hinv hfind =>
    refine .inr (.inr ⟨h0, rfl, _, (alloc_some hi ha hn).symm, ?_⟩)
    exact hinv.available

/-- The entries on the way through the indices, from the table that the first ones lead to. -/
inductive Levels : List Nat → List Nat → List Nat → Prop
  | nil (is : List Nat) : Levels is [] []
  | cons {is js ents : List Nat} {i ent : Nat} (points : Points ent is i)
      (rest : Levels (is ++ [i]) js ents) : Levels is (i :: js) (ent :: ents)

theorem levels_page (virt : Nat) :
    Levels [] (lastTable virt) [pml4Entry virt, pml3Entry virt, pml2Entry virt] :=
  .cons (points_pml4Entry virt) (.cons (points_pml3Entry virt)
    (.cons (points_pml2Entry virt) (.nil _)))

/-- A new table is empty. -/
theorem TableEnd.cleared {t i u : Nat} {is : List Nat} (h : TableEnd w t i is true w')
    (hi : Inv w) (ht : w.place t = some is) (hw : Way (is ++ [i])) (h0 : w.m.mem (slot t i) = 0)
    (hu : find next w'.m.mem w'.m.cr3 (is ++ [i]) = some u) {j : Nat} (hj : j < 512) :
    w'.m.mem (slot u j) = 0 := by
  cases h with
  | found h => exact absurd h0 h
  | @made f q h0 ha hh hinv hfind =>
    cases hfind.symm.trans hu
    exact (hi.newTable hh ht hw h0).cleared j hj

/-- The tables are made just when there is a frame for each that is missing. -/
theorem ensureTables_available {is js ents : List Nat} {t : Nat} {ok : Bool} {m' : Machine}
    (hl : Levels is js ents) (hi : Inv w) (hw : Way (is ++ js))
    (htop : ∀ i, (is ++ js).head? = some i → i < 256)
    (hf : find next w.m.mem w.m.cr3 is = some t) (hn : Available w.m.phys n)
    (h : ensureTables w.m ents = some (ok, m')) :
    ok = true ↔ missing next w.m.mem t js ≤ n := by
  induction hl generalizing w t n with
  | nil is =>
    cases h
    exact iff_of_true rfl (Nat.zero_le n)
  | @cons is js ents i ent hp hrest ih =>
    have hstep : is ++ i :: js = (is ++ [i]) ++ js := by
      rw [List.append_assoc]
      rfl
    rw [hstep] at hw htop
    have hway : Way (is ++ [i]) := way_left _ _ hw
    have ht : w.place t = some is := hi.linked.placed.place_find hi.loaded (way_left _ _ hway) hf
    have hroot : is = [] → 256 ≤ i → w.m.mem (slot w.m.cr3 i) = 0 →
        ∀ r, w.place r = some [] → r = w.m.cr3 := by
      rintro rfl h256
      have hlt : i < 256 := htop i rfl
      omega
    obtain ⟨⟨ok₁, m₁⟩, h₁, h₂⟩ := Option.bind_eq_some_iff.mp h
    obtain ⟨w₁, rfl, hend⟩ := ensureTable_ends hi hp hway hf hroot h₁
    obtain ⟨w₂, hm, hi₁, hext, hfound⟩ := ensureTable_spec hi hp hway hf hroot h₁
    rcases hend.available hi hn with ⟨h0, rfl, rfl⟩ | ⟨h0, rfl, rfl⟩ | ⟨h0, rfl, k, rfl, hk⟩
    · obtain ⟨u, hu⟩ := hfound rfl
      have hnext : next (w₁.m.mem (slot t i)) = some u := by
        rw [find_append, hf] at hu
        exact (Option.bind_fun_some _).symm.trans hu
      rw [missing_of_next hnext]
      exact ih hi hw htop hu hn h₂
    · cases h₂
      rw [missing_of_none (by rw [h0]; rfl)]
      exact iff_of_false Bool.false_ne_true (Nat.not_succ_le_zero _)
    · obtain ⟨u, hu⟩ := hfound rfl
      have hzero : ∀ j ∈ js, w₁.m.mem (slot u j) = 0 := by
        intro j hj
        exact hend.cleared hi ht hway h0 hu (hw.2.1 j (List.mem_append_right _ hj))
      rw [missing_of_none (by rw [h0]; rfl)]
      rw [← hm] at hu hk h₂ hzero
      rw [ih hi₁ hw htop hu hk h₂, missing_empty rfl hzero]
      exact Nat.succ_le_succ_iff.symm

end counting

/-! One page. -/

/-- There is no frame for a table on the way to the page. -/
def TablesFail (m : Machine) (virt : Nat) : Prop :=
  ∃ m', ensureTables m [pml4Entry virt, pml3Entry virt, pml2Entry virt] = some (false, m')

/-- There is no frame for the page, or none for a table on the way to it. -/
def AllocFails (m : Machine) (virt : Nat) : Prop :=
  (∃ m', alloc m = some (none, m')) ∨ ∃ f m', alloc m = some (some f, m') ∧ TablesFail m' virt

/-- The frames that a page takes: its own, and those of the tables. -/
def needed (m : Machine) (virt : Nat) : Nat := 1 + missing next m.mem m.cr3 (lastTable virt)

section page

variable {w w' : World} {n virt fl : Nat}

theorem Handed.missing_eq {f : Nat} {q : Phys.PhysMem} (hh : Handed w f q) (hi : Inv w)
    (hv : pml4Index virt < 511) :
    missing next (w.hand f q).m.mem w.m.cr3 (lastTable virt) =
      missing next w.m.mem w.m.cr3 (lastTable virt) := by
  apply missing_congr
  rintro js ⟨rest, hjs⟩
  have hway : Way (js ++ rest) := hjs ▸ way_lastTable hv
  exact (hh.sameTables hi).find hi hi.loaded (way_left _ _ hway)

theorem allocFails_iff (hw : Sound w) (hv : pml4Index virt < 256) (hn : Available w.m.phys n) :
    AllocFails w.m virt ↔ n < needed w.m virt := by
  have hi := hw.inv
  have hv' : pml4Index virt < 511 := by omega
  obtain ⟨x, m', ha⟩ := alloc_total hi hw.temp
  rcases alloc_spec hi ha with ⟨rfl, rfl⟩ | ⟨f, q, rfl, rfl, hh⟩
  · rw [alloc_none hi ha hn]
    exact iff_of_true (.inl ⟨_, ha⟩) (by rw [needed]; omega)
  · obtain ⟨k, rfl, hk⟩ := hh.available hi ha hn
    have hw₁ := hh.sound hw
    obtain ⟨ok, m₂, htab⟩ := ensureTables_total hw₁.inv hv' (hw₁.full.topReady hv') hw₁.temp
    have htop : ∀ i, ([] ++ lastTable virt).head? = some i → i < 256 := by
      intro i hhead
      cases hhead
      exact hv
    have hok := ensureTables_available (levels_page virt) hw₁.inv (way_lastTable hv') htop rfl hk
      htab
    have hmissing : missing next (w.hand f q).m.mem (w.hand f q).m.cr3 (lastTable virt) =
        missing next w.m.mem w.m.cr3 (lastTable virt) := hh.missing_eq hi hv'
    rw [hmissing] at hok
    have hfails : AllocFails w.m virt ↔ ok = false := by
      constructor
      · rintro (⟨m, hx⟩ | ⟨g, m, hx, m₃, hy⟩)
        · cases ha.symm.trans hx
        · cases ha.symm.trans hx
          cases htab.symm.trans hy
          rfl
      · rintro rfl
        exact .inr ⟨f, _, ha, m₂, htab⟩
    rw [hfails, ← Bool.not_eq_true, hok, needed]
    omega

/-- A page without memory is not mapped. -/
theorem AllocFails.not_ok {m m' : Machine} (h : AllocFails m virt) :
    allocMap m virt fl ≠ some (.ok (), m') := by
  intro hx
  obtain ⟨⟨x, m₁⟩, ha, hx⟩ := Option.bind_eq_some_iff.mp hx
  rcases h with ⟨m₂, hnone⟩ | ⟨f, m₂, hsome, m₃, htab⟩
  · cases ha.symm.trans hnone
    cases hx
  · cases ha.symm.trans hsome
    obtain ⟨⟨y, m₄⟩, hmap, hx⟩ := Option.bind_eq_some_iff.mp hx
    rw [map, htab] at hmap
    obtain ⟨m₅, -, hy⟩ := Option.map_eq_some_iff.mp hmap
    cases hy
    cases hx

/-- It is reported, and all pages are as before. -/
theorem AllocFails.returns (h : AllocFails w.m virt) (hw : Sound w) (hv : pml4Index virt < 256)
    (fl : Nat) :
    ∃ w', allocMap w.m virt fl = some (.error .memoryExhausted, w'.m) ∧
      AllocEnd w virt fl (.error .memoryExhausted) w' := by
  have hex : ∃ m', allocMap w.m virt fl = some (.error .memoryExhausted, m') := by
    rcases h with ⟨m₁, hnone⟩ | ⟨f, m₁, hsome, m₂, htab⟩
    · exact ⟨m₁, by rw [allocMap, hnone]; rfl⟩
    · rcases alloc_spec hw.inv hsome with ⟨hx, -⟩ | ⟨g, q, hx, rfl, hh⟩
      · cases hx
      · cases hx
        have hw₁ := hh.sound hw
        have hv' : pml4Index virt < 511 := by omega
        obtain ⟨r, m₃, hmap⟩ := map_total hw₁.inv fl hv' (hw₁.full.topReady hv') hw₁.temp
          (hw.inv.hand_loose f q)
        refine ⟨m₃, ?_⟩
        rw [allocMap, hsome, Option.bind_some]
        change (map (w.hand f q).m f virt fl).bind _ = _
        rw [hmap]
        change ensureTables (w.hand f q).m _ = _ at htab
        rw [map, htab] at hmap
        obtain ⟨m₄, -, hy⟩ := Option.map_eq_some_iff.mp hmap
        cases hy
        rfl
  obtain ⟨m', hx⟩ := hex
  obtain ⟨w', rfl, hend⟩ := allocMap_spec hw hv hx
  exact ⟨w', hx, hend⟩

end page

/-! Calls. -/

/-- The call comes to a page for which there is no memory; the pages before it are mapped. -/
def RunsOut (m : Machine) : Call → Prop
  | .allocPage v n bits =>
    ∃ range fl before a after m₁, PageRange.new v n = .ok range ∧
      validateAvailable (tables.entry m) range.pages = some (.ok ()) ∧
      PageCalls.userPageFlags bits = .ok fl ∧ range.pages = before ++ a :: after ∧
      PageCalls.allocPages tables fl before m = some (.ok OK, m₁) ∧ AllocFails m₁ a
  | .mapPhysicalMemory v p n bits =>
    ∃ range fl before a f after m₁ q, PageRange.new v n = .ok range ∧
      validateAvailable (tables.entry m) range.pages = some (.ok ()) ∧
      PageCalls.userPageFlags bits = .ok fl ∧
      range.pages.zip (PageCalls.physPages p n) = before ++ (a, f) :: after ∧
      run (PageCalls.mapPhysAs tables fl) m before = some m₁ ∧
      Phys.new m₁.phys f = .ok (f, q) ∧ TablesFail { m₁ with phys := q } a
  | _ => False

/-- The frames in the last entries of the user half. -/
def userFrames (m : Machine) : Set Nat :=
  { f | ∃ v e, pml4Index v < 256 ∧ pageWord m.mem m.cr3 v = some e ∧ e ≠ 0 ∧ frame e = f }

/-- The call reports that memory is exhausted, and has changed no user page. -/
def FailsCleanly (m : Machine) (c : Call) : Prop :=
  ∃ m', c.exec m = some (.error .memoryExhausted, m') ∧
    (∀ v, pml4Index v < 256 → pageWord m'.mem m'.cr3 v = pageWord m.mem m.cr3 v) ∧
    userFrames m' = userFrames m

section calls

variable {w w' : World} {fl : Nat}

theorem allocPage_exec {m : Machine} {v n bits : Nat} {range : PageRange}
    (hn : PageRange.new v n = .ok range)
    (hv : validateAvailable (tables.entry m) range.pages = some (.ok ()))
    (hfl : PageCalls.userPageFlags bits = .ok fl) :
    (Call.allocPage v n bits).exec m = PageCalls.allocPages tables fl range.pages m := by
  simp only [Call.exec, PageCalls.allocPage, hn, PageCalls.orFail, hv, Option.bind_some, hfl]

theorem mapPhysicalMemory_exec {m : Machine} {v p n bits : Nat} {range : PageRange}
    (hn : PageRange.new v n = .ok range)
    (hv : validateAvailable (tables.entry m) range.pages = some (.ok ()))
    (hfl : PageCalls.userPageFlags bits = .ok fl) :
    (Call.mapPhysicalMemory v p n bits).exec m =
      (run (PageCalls.mapPhysAs tables fl) m (range.pages.zip (PageCalls.physPages p n))).map
        fun m => (.ok OK, m) := by
  simp only [Call.exec, PageCalls.mapPhysicalMemory, hn, PageCalls.orFail, hv, Option.bind_some,
    hfl]

/-- A mapping without memory for a table is a panic, wherever it happens. -/
theorem mapPhysicalMemory_runs_out {m : Machine} {v p n bits : Nat}
    (h : RunsOut m (.mapPhysicalMemory v p n bits)) :
    (Call.mapPhysicalMemory v p n bits).exec m = none := by
  obtain ⟨range, fl, before, a, f, after, m₁, q, hn, hv, hfl, hpages, hbefore, hnew, m₂, htab⟩ := h
  have hstep : PageCalls.mapPhysAs tables fl m₁ (a, f) = none := by
    change (Phys.new m₁.phys f).toOption.bind _ = none
    rw [hnew]
    change (map { m₁ with phys := q } f a fl).bind expect = none
    rw [map, htab]
    change ((drop m₂ f).map _).bind expect = none
    cases drop m₂ f with
    | none => rfl
    | some m₃ => rfl
  rw [mapPhysicalMemory_exec hn hv hfl, hpages, run_append, hbefore, Option.bind_some, run_cons,
    hstep]
  rfl

/-- A page that is mapped stays as it is while others are allocated. -/
theorem allocPages_keeps {pages : List Nat} {r : SysResult Nat} {m' : Machine} {v e : Nat}
    (hw : Sound w) (huser : ∀ a ∈ pages, pml4Index a < 256) (hfl : fl < PAGE_SIZE)
    (h : PageCalls.allocPages tables fl pages w.m = some (r, m')) (hv : pml4Index v < 256)
    (he : pageWord w.m.mem w.m.cr3 v = some e) (h0 : e ≠ 0) :
    pageWord m'.mem m'.cr3 v = some e := by
  obtain ⟨w', rfl, -, hkeep⟩ := PageCalls.allocPages_follow (f := World.m) (P := Sound)
    (R := fun u u' => pageWord u.m.mem u.m.cr3 v = some e → pageWord u'.m.mem u'.m.cr3 v = some e)
    (fun _ h => h) (fun _ _ _ h₁ h₂ h => h₂ (h₁ h))
    (fun a ha u x s' hu hs => by
      have ha' := huser a ha
      obtain ⟨u', hm, hend⟩ := allocMap_spec hu ha' hs
      refine ⟨u', hm, (hend.sound hu ha' hfl).1, fun hword => ?_⟩
      rcases hend.word hu.inv (v := v) (by omega) (by omega) with hsame | ⟨-, -, hzero, -⟩
      · rw [hsame, hword]
      · exact absurd (Option.some.inj (hword.symm.trans hzero)) h0) hw h
  exact hkeep he

theorem pages_head {v n a : Nat} {rest : List Nat} (hv : v + n * PAGE_SIZE ≤ MAX_USER_ADDR)
    (h : PageRange.pages ⟨v, n⟩ = a :: rest) : a = v := by
  rw [PageRange.pages_eq (r := ⟨v, n⟩) hv] at h
  cases n with
  | zero => cases h
  | succ n =>
    rw [List.range_succ_eq_map] at h
    have hhead := (List.cons.inj h).1
    rw [← hhead]
    exact (congrArg (v + ·) (Nat.zero_mul _)).trans (Nat.add_zero v)

theorem userFrames_congr {m m' : Machine}
    (h : ∀ v, pml4Index v < 256 → pageWord m'.mem m'.cr3 v = pageWord m.mem m.cr3 v) :
    userFrames m' = userFrames m := by
  ext f
  constructor
  · rintro ⟨v, e, hv, he, hrest⟩
    exact ⟨v, e, hv, h v hv ▸ he, hrest⟩
  · rintro ⟨v, e, hv, he, hrest⟩
    exact ⟨v, e, hv, (h v hv).trans he, hrest⟩

/-- A first page without memory leaves everything as it was. -/
theorem first_page_fails {v : Nat} (fl : Nat) (hw : Sound w) (hv : pml4Index v < 256)
    (h : AllocFails w.m v) (rest : List Nat) :
    ∃ m', PageCalls.allocPages tables fl (v :: rest) w.m = some (.error .memoryExhausted, m') ∧
      ∀ u, pml4Index u < 256 → pageWord m'.mem m'.cr3 u = pageWord w.m.mem w.m.cr3 u := by
  obtain ⟨w', hx, hend⟩ := h.returns hw hv fl
  refine ⟨w'.m, ?_, fun u hu => ?_⟩
  · change (allocMap w.m v fl).bind _ = _
    rw [hx]
    rfl
  · rcases hend.word hw.inv (v := u) (by omega) (by omega) with hsame | ⟨hok, -⟩
    · exact hsame
    · cases hok

/-- A first page with memory is mapped when the call returns. -/
theorem first_page_mapped {v : Nat} {rest before : List Nat} {x : Nat} {r : SysResult Nat}
    {m₁ m' : Machine} (hw : Sound w) (huser : ∀ a ∈ v :: rest, pml4Index a < 256)
    (hfl : fl < PAGE_SIZE) (hfl0 : fl ≠ 0)
    (hbefore : PageCalls.allocPages tables fl (v :: before) w.m = some (.ok x, m₁))
    (h : PageCalls.allocPages tables fl (v :: rest) w.m = some (r, m')) :
    ¬ AllocFails w.m v ∧ pageWord w.m.mem w.m.cr3 v = some 0 ∧
      pageWord m'.mem m'.cr3 v ≠ some 0 := by
  have hv := huser v List.mem_cons_self
  obtain ⟨⟨y, m₂⟩, hx, hbefore⟩ := Option.bind_eq_some_iff.mp hbefore
  cases y with
  | error e => cases hbefore
  | ok u =>
  refine ⟨fun hfails => hfails.not_ok hx, ?_⟩
  obtain ⟨w₂, rfl, hend⟩ := allocMap_spec hw hv hx
  have hw₂ := (hend.sound hw hv hfl).1
  have hrest : PageCalls.allocPages tables fl rest w₂.m = some (r, m') := by
    change (allocMap w.m v fl).bind _ = _ at h
    rw [show allocMap w.m v fl = _ from hx] at h
    exact h
  obtain ⟨f, q, handed, mapped⟩ := hend.mapped rfl
  have hzero := mapped.free handed.inv (by omega)
  have hself := mapped.self (by omega)
  rw [show pageWord (w.hand f q).m.mem (w.hand f q).m.cr3 v = pageWord w.m.mem w.m.cr3 v from
    (handed.sameTables hw.inv).pageWord hw.inv hw.inv.loaded (by omega)] at hzero
  refine ⟨hzero, ?_⟩
  have h0 : f ||| fl ≠ 0 := fun hz => hfl0 (Nat.or_eq_zero_iff.mp hz).2
  rw [allocPages_keeps hw₂ (fun a ha => huser a (List.mem_cons_of_mem _ ha)) hfl hrest hv hself h0]
  exact fun hx => h0 (Option.some.inj hx)

end calls

/-- One page more than there are frames for, after the start. -/
def bootExhaust : Call := .allocPage 0x10000000 13 0

theorem bootExhaust_reachable {m : Machine} {r : SysResult Nat}
    (h : bootExhaust.exec bootWorld.m = some (r, m)) : Reachable ⟨m, [], []⟩ := by
  refine ⟨bootWorld, [], bootWorld.m, [], [.call bootExhaust], ⟨bootWorld.m, [], []⟩, bootBooted,
    initKernelPml4Entries_full bootInv bootFull, trivial, rfl, ⟨trivial, ?_⟩, ?_⟩
  · cases kernelStep ⟨bootWorld.m, [], []⟩ (.call bootExhaust) with
    | none => trivial
    | some k => trivial
  · rw [run_cons, kernelStep, h]
    rfl

end Crabos.Page
