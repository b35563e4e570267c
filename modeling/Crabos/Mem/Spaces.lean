import Crabos.Mem.UserHalf
import Crabos.Syscall

/-!
# Address spaces

The scheduler sees the page tables as one map from pages to last level entries:
a page of the user half belongs to one page context, a page of the kernel half
to all of them. Each function of `page.rs` does to the words in memory what it
does to the map, and so do the calls: each check has the same result, and the
loop of a call changes the same entries.
-/
namespace Crabos.Page

open Crabos.Words Crabos.Radix Crabos.Interface Crabos.User Crabos.Run

variable {w w' : World}

/-- The PML4s that are loaded or held. -/
def World.roots (w : World) : List Nat := w.m.cr3 :: w.ctxs

theorem Inv.root_place (hi : Inv w) {r : Nat} (hr : r ∈ w.roots) : w.place r = some [] := by
  rcases List.mem_cons.mp hr with rfl | hc
  · exact hi.loaded
  · exact hi.ctx r hc

theorem indices_page {v virt : Nat} :
    indices v = indices virt ↔ v / PAGE_SIZE % 2 ^ 36 = virt / PAGE_SIZE % 2 ^ 36 := by
  simp only [indices, pml4Index, pml3Index, pml2Index, pml1Index, PAGE_SIZE, List.cons.injEq, and_true]
  omega

theorem pageKey_user {v : Nat} (c : Nat) (h : pml4Index v < 256) :
    Syscall.pageKey c v = (some c, v / PAGE_SIZE % 2 ^ 36) := by
  have hlow : v / PAGE_SIZE % 2 ^ 36 < 2 ^ 35 := by
    simp only [pml4Index, PAGE_SIZE] at h ⊢
    omega
  simp only [Syscall.pageKey, if_pos hlow]

theorem pageKey_indices {a b v virt : Nat} (h : Syscall.pageKey a v = Syscall.pageKey b virt) :
    indices v = indices virt := indices_page.mpr (congrArg Prod.snd h)

/-- The key of a user page tells its page context and its indices. -/
theorem pageKey_eq {a b v virt : Nat} (hv : pml4Index virt < 256) :
    Syscall.pageKey a v = Syscall.pageKey b virt ↔ a = b ∧ indices v = indices virt := by
  have huser : indices v = indices virt → pml4Index v < 256 := by
    intro hidx
    rw [(List.cons.inj hidx).1]
    exact hv
  constructor
  · intro h
    have hidx := pageKey_indices h
    rw [pageKey_user a (huser hidx), pageKey_user b hv] at h
    cases (Prod.mk.inj h).1
    exact ⟨rfl, hidx⟩
  · rintro ⟨rfl, hidx⟩
    rw [pageKey_user a (huser hidx), pageKey_user a hv, indices_page.mp hidx]

/-- The key of a kernel page is the same in all page contexts. -/
theorem pageKey_kernel {v virt : Nat} (hv : 256 ≤ pml4Index virt) (a b : Nat)
    (h : indices v = indices virt) : Syscall.pageKey a v = Syscall.pageKey b virt := by
  have hhigh : ¬ virt / PAGE_SIZE % 2 ^ 36 < 2 ^ 35 := by
    simp only [pml4Index, PAGE_SIZE] at hv ⊢
    omega
  simp only [Syscall.pageKey, indices_page.mp h, if_neg hhigh]

/-- Every page of every PML4 has the entry that the map says. -/
def Words (env : Syscall.Env) (mem : Mem) (roots : List Nat) : Prop :=
  ∀ r ∈ roots, ∀ v, pml4Index v < 511 → pageWord mem r v = some (env.entry r v)

section words

variable {env : Syscall.Env} {roots : List Nat} {t i virt : Nat}

theorem Words.congr {mem mem' : Mem} (h : Words env mem roots)
    (hsame : ∀ r ∈ roots, ∀ v, pml4Index v < 511 → pageWord mem' r v = pageWord mem r v) :
    Words env mem' roots := by
  intro r hr v hv
  rw [hsame r hr v hv]
  exact h r hr v hv

/-- In a PML4 that does not lead to the table, no page has another entry. -/
theorem OneSlot.pageWord_apart {p : List Nat} (h : OneSlot w w' t i p) (hi : Inv w) {r v : Nat}
    (hr : w.place r = some []) (hv : pml4Index v < 511)
    (hne : Radix.find next w.m.mem r (lastTable v) ≠ some t) :
    pageWord w'.m.mem r v = pageWord w.m.mem r v := by
  have hr' : w'.place r = some [] := by
    rw [h.place]
    exact hr
  rw [hi.linked.pageWord_eq hr hv, (h.linked hi).pageWord_eq hr' hv, h.find hi hr (way_lastTable hv)]
  cases hf : Radix.find next w.m.mem r (lastTable v) with
  | none => rfl
  | some u =>
    have hut : u ≠ t := by
      rintro rfl
      exact hne hf
    refine congrArg some (h.mem u _ _ (hi.linked.place_last hr hv hf) (pml1Index_lt _) ?_)
    exact fun hx => hut hx.1

/-- A store in the last entry of a page of the loaded PML4 changes the entry
with the key of that page, and no other. -/
theorem OneSlot.words (h : OneSlot w w' t (pml1Index virt) (lastTable virt)) (hi : Inv w)
    (hv : pml4Index virt < 511) (hf : Radix.find next w.m.mem w.m.cr3 (lastTable virt) = some t)
    (hcr3 : w.m.cr3 ∈ roots) (hroots : ∀ r ∈ roots, w.place r = some [])
    (hs : Split w.m.mem roots) (hwords : Words env w.m.mem roots) :
    Words (env.setEntry w.m.cr3 virt (w'.m.mem (slot t (pml1Index virt)))) w'.m.mem roots := by
  intro r hr v hv'
  by_cases hidx : indices v = indices virt
  · have hlast : lastTable v = lastTable virt := congrArg (List.take 3) hidx
    by_cases hhalf : pml4Index virt < 256
    · by_cases hc : r = w.m.cr3
      · subst hc
        rw [Syscall.setEntry_key env _ ((pageKey_eq hhalf).mpr ⟨rfl, hidx⟩), pageWord_indices hidx]
        exact h.pageWord_self hi hi.loaded hv hf rfl
      · rw [Syscall.setEntry_other env _ fun hk => hc ((pageKey_eq hhalf).mp hk).1, ← hwords r hr v hv']
        refine h.pageWord_apart hi (hroots r hr) hv' fun hfr => hc ?_
        rw [hlast] at hfr
        exact hs r hr _ hcr3 (lastTable virt) t (by simp [lastTable]) (way_lastTable hv)
          (half_user hhalf) hfr hf
    · -- the table is that of all PML4s
      rw [Syscall.setEntry_key env _ (pageKey_kernel (by omega) r _ hidx), pageWord_indices hidx]
      have hword := hi.linked.agree r w.m.cr3 _ (hroots r hr) hi.loaded (by omega) hv
      have hfr : Radix.find next w.m.mem r (lastTable virt) = some t := by
        rw [← hf, lastTable, Radix.find, Radix.find, hword]
      exact h.pageWord_self hi (hroots r hr) hv hfr rfl
  · have hkey : Syscall.pageKey r v ≠ Syscall.pageKey w.m.cr3 virt :=
      fun hk => hidx (pageKey_indices hk)
    rw [Syscall.setEntry_other env _ hkey, ← hwords r hr v hv']
    refine h.pageWord_other hi (hroots r hr) hv' fun hx => hidx ?_
    exact indices_inj hx.1 hx.2

end words

/-- The map shows the page tables as they are in memory. -/
structure Sees (w : World) (env : Syscall.Env) : Prop where
  sound : Sound w
  split : Split w.m.mem w.roots
  words : Words env w.m.mem w.roots
  window : ∀ c, env.entry c 0xfffffffffffff000 ≠ 0

/-- What is seen depends on the machine and the contexts only. -/
theorem Sees.transfer {env : Syscall.Env} (h : Sees w env) (hm : w.m = w'.m)
    (hctxs : w.ctxs = w'.ctxs) (hw' : Sound w') : Sees w' env := by
  have hroots : w.roots = w'.roots := by rw [World.roots, World.roots, hm, hctxs]
  refine ⟨hw', ?_, ?_, h.window⟩
  · rw [← hm, ← hroots]
    exact h.split
  · rw [← hm, ← hroots]
    exact h.words

section steps

variable {env : Syscall.Env} {f virt fl : Nat}

theorem Inv.roots_place (hi : Inv w) : ∀ r ∈ w.roots, w.place r = some [] := fun _ => hi.root_place

theorem setEntry_window (h : ∀ c, env.entry c 0xfffffffffffff000 ≠ 0) {c : Nat} (e : Nat)
    (hv : pml4Index virt < 256) (d : Nat) :
    (env.setEntry c virt e).entry d 0xfffffffffffff000 ≠ 0 := by
  rw [Syscall.setEntry_other]
  · exact h d
  · intro hk
    have hidx := (List.cons.inj ((pageKey_eq hv).mp hk).2).1
    rw [← hidx] at hv
    exact absurd hv (by decide)

theorem Confined.roots (h : Confined w w') : w'.roots = w.roots := by
  rw [World.roots, World.roots, h.cr3, h.ctxs]

/-- Nothing changes in the map. -/
theorem Sees.keep (h : Sees w env) (hw' : Sound w') (hconf : Confined w w')
    (hs : Split w'.m.mem w.roots)
    (hsame : ∀ r ∈ w.roots, ∀ v, pml4Index v < 511 →
      pageWord w'.m.mem r v = pageWord w.m.mem r v) : Sees w' env := by
  refine ⟨hw', ?_, ?_, h.window⟩
  · rw [hconf.roots]
    exact hs
  · rw [hconf.roots]
    exact h.words.congr hsame

/-- One page of the loaded context has a new entry. -/
theorem Sees.set (h : Sees w env) {e : Nat} (hv : pml4Index virt < 256) (hw' : Sound w')
    (hconf : Confined w w') (hs : Split w'.m.mem w.roots)
    (hwords : Words (env.setEntry w.m.cr3 virt e) w'.m.mem w.roots) :
    Sees w' (env.setEntry w.m.cr3 virt e) := by
  refine ⟨hw', ?_, ?_, setEntry_window h.window e hv⟩
  · rw [hconf.roots]
    exact hs
  · rw [hconf.roots]
    exact hwords

theorem UnmapEnd.words (h : UnmapEnd w virt (.ok ()) w') (hi : Inv w) (hv : pml4Index virt < 511)
    (hs : Split w.m.mem w.roots) (hwords : Words env w.m.mem w.roots) :
    frame (env.entry w.m.cr3 virt) ≠ 0 ∧ Words (env.setEntry w.m.cr3 virt 0) w'.m.mem w.roots := by
  have hentry := hwords w.m.cr3 List.mem_cons_self virt hv
  rw [hi.linked.pageWord_eq hi.loaded hv] at hentry
  cases h with
  | @done t f p last entry some managed dropped =>
    have h1 := clear_oneSlot hi (hi.last hv last) dropped
    have hword := h1.words hi hv last List.mem_cons_self hi.roots_place hs hwords
    have hz : (w.clear t (pml1Index virt) f p).m.mem (slot t (pml1Index virt)) = 0 :=
      Function.update_self _ _ _
    rw [hz] at hword
    rw [last] at hentry
    rw [← Option.some.inj hentry, Option.elim_some, entry]
    exact ⟨some, hword⟩
  | @foreign t last some outside =>
    have h1 := hi.write_oneSlot (hi.last hv last) 0
    have hword := h1.words hi hv last List.mem_cons_self hi.roots_place hs hwords
    rw [write_self] at hword
    rw [last] at hentry
    rw [← Option.some.inj hentry]
    exact ⟨some, hword⟩

theorem Sees.unmap (h : Sees w env) {m' : Machine} (hv : pml4Index virt < 256)
    (hm : tables.unmap w.m virt = some m') :
    ∃ w', w'.m = m' ∧ Confined w w' ∧ env.entry w.m.cr3 virt / PAGE_SIZE ≠ 0 ∧
      Sees w' (env.setEntry w.m.cr3 virt 0) := by
  have hi := h.sound.inv
  obtain ⟨w', rfl, hend, hw', -, hconf⟩ := unmap_ends h.sound hv hm
  have hs := hend.split hi (by omega) hi.roots_place h.split
  obtain ⟨h0, hwords⟩ := hend.words hi (by omega) h.split h.words
  refine ⟨w', rfl, hconf, fun hz => h0 ?_, h.set hv hw' hconf hs hwords⟩
  rw [frame, hz, Nat.zero_mul]

theorem Sees.modify (h : Sees w env) {m' : Machine} (hv : pml4Index virt < 256)
    (hfl : fl < PAGE_SIZE) (hm : PageCalls.modifyAs tables fl w.m virt = some m') :
    ∃ w', w'.m = m' ∧ Confined w w' ∧ env.entry w.m.cr3 virt ≠ 0 ∧
      Sees w' (env.setEntry w.m.cr3 virt (setFlags (env.entry w.m.cr3 virt) fl)) := by
  have hi := h.sound.inv
  obtain ⟨w', rfl, hend, hw', -, hconf⟩ := modify_ends h.sound hv hfl hm
  have hs := hend.split hi (by omega) hi.roots_place h.split
  cases hend with
  | @done t e last entry some =>
    have hentry := h.words w.m.cr3 List.mem_cons_self virt (by omega)
    rw [hi.linked.pageWord_eq hi.loaded (by omega), last] at hentry
    have he : env.entry w.m.cr3 virt = e := (Option.some.inj hentry).symm.trans entry
    rw [he]
    refine ⟨_, rfl, hconf, some, h.set hv hw' hconf hs ?_⟩
    have h1 := setEntry_oneSlot hi (hi.last (by omega) last) (setFlags e fl)
    have hword := h1.words hi (by omega) last List.mem_cons_self hi.roots_place h.split h.words
    have hz : (w.setEntry t (pml1Index virt) (setFlags e fl)).m.mem (slot t (pml1Index virt)) =
        setFlags e fl := write_self _ _ _
    rw [hz] at hword
    exact hword

/-- The tables that `map` makes change no entry; then one is set. -/
theorem words_mapped {w₁ : World} {t : Nat} {hlf : Half} (hext : Ext hlf w w₁) (hi : Inv w)
    (hi₁ : Inv w₁) (hv : pml4Index virt < 511)
    (hlast : find next w₁.m.mem w₁.m.cr3 (lastTable virt) = some t)
    (h1 : OneSlot w₁ w' t (pml1Index virt) (lastTable virt)) (hs : Split w'.m.mem w.roots)
    (hwords : Words env w.m.mem w.roots) :
    Words (env.setEntry w.m.cr3 virt (w'.m.mem (slot t (pml1Index virt)))) w'.m.mem w.roots := by
  have hplace : ∀ r ∈ w.roots, w₁.place r = some [] :=
    fun r hr => hext.places r [] (hi.root_place hr)
  have hs₁ : Split w₁.m.mem w.roots := hs.congr fun r hr is hw => (h1.find hi₁ (hplace r hr) hw).symm
  have hwords₁ : Words env w₁.m.mem w.roots :=
    hwords.congr fun r hr v hv' => hext.words r v (hi.root_place hr) hv'
  rw [← hext.cr3]
  exact h1.words hi₁ hv hlast (hext.cr3 ▸ List.mem_cons_self) hplace hs₁ hwords₁

theorem MapForeignEnd.words (h : MapForeignEnd w f virt fl (.ok ()) w') (hi : Inv w)
    (hv : pml4Index virt < 511) (hs : Split w'.m.mem w.roots) (hwords : Words env w.m.mem w.roots) :
    env.entry w.m.cr3 virt = 0 ∧
      Words (env.setEntry w.m.cr3 virt (f ||| fl)) w'.m.mem w.roots := by
  cases h with
  | @done w₁ t ext inv last empty =>
    have h1 := inv.write_oneSlot (inv.last hv last) (f ||| fl)
    have hset := words_mapped ext hi inv hv last h1 hs hwords
    rw [write_self] at hset
    refine ⟨?_, hset⟩
    have hword := ext.words _ virt hi.loaded hv
    rw [hwords _ List.mem_cons_self virt hv] at hword
    have hlook := inv.linked.pageWord_eq inv.loaded hv
    rw [last, ext.cr3] at hlook
    exact (Option.some.inj (hlook.symm.trans hword)).symm.trans empty

theorem MapEnd.words (h : MapEnd w f virt fl (.ok ()) w') (hi : Inv w)
    (hv : pml4Index virt < 511) (hs : Split w'.m.mem w.roots) (hwords : Words env w.m.mem w.roots) :
    env.entry w.m.cr3 virt = 0 ∧
      Words (env.setEntry w.m.cr3 virt (f ||| fl)) w'.m.mem w.roots := by
  have hfree := h.free hi hv
  rw [hwords _ List.mem_cons_self virt hv] at hfree
  refine ⟨Option.some.inj hfree, ?_⟩
  cases h with
  | @done w₁ t ext inv last empty =>
    have h1 := mapTo_oneSlot inv (inv.last hv last) f fl
    have hset := words_mapped ext hi inv hv last h1 hs hwords
    have hself : (w₁.mapTo t (pml1Index virt) f fl).m.mem (slot t (pml1Index virt)) = f ||| fl :=
      write_self _ _ _
    rw [hself] at hset
    exact hset

theorem Sees.mapPhys (h : Sees w env) {m' : Machine} (hv : pml4Index virt < 256)
    (hfl : fl < PAGE_SIZE) (hf : ¬ Phys.Managed w.m.phys.regions f)
    (hm : PageCalls.mapPhysAs tables fl w.m (virt, f) = some m') :
    ∃ w', w'.m = m' ∧ Confined w w' ∧ env.entry w.m.cr3 virt = 0 ∧
      Sees w' (env.setEntry w.m.cr3 virt (f ||| fl)) := by
  have hi := h.sound.inv
  have hsplit : Split m'.mem w.roots := by
    obtain ⟨⟨g, p⟩, hn, hx⟩ := Option.bind_eq_some_iff.mp hm
    have hn := toOption_some hn
    rw [Phys.new_foreign hf] at hn
    cases hn
    obtain ⟨x, hx, he⟩ := Option.bind_eq_some_iff.mp hx
    rw [expect_ok he] at hx
    change map w.m f virt fl = some (.ok (), m') at hx
    exact map_split hi (by omega) (h.sound.full.topReady (by omega)) (.inr hf) hi.roots_place h.split hx
  obtain ⟨w', rfl, hend, hw', -, hconf⟩ := mapForeign_ends h.sound hv hfl hf hm
  obtain ⟨h0, hwords⟩ := hend.words hi (by omega) hsplit h.words
  exact ⟨w', rfl, hconf, h0, h.set hv hw' hconf hsplit hwords⟩

theorem allocMap_split (hw : Sound w) {r : SysResult Unit} {m' : Machine} {roots : List Nat}
    (hv : pml4Index virt < 256) (hroots : ∀ r ∈ roots, w.place r = some [])
    (hs : Split w.m.mem roots) (hm : allocMap w.m virt fl = some (r, m')) : Split m'.mem roots := by
  obtain ⟨⟨x, m₁⟩, ha, hm⟩ := Option.bind_eq_some_iff.mp hm
  rcases alloc_spec hw.inv ha with ⟨rfl, rfl⟩ | ⟨f, q, rfl, rfl, hh⟩
  · cases hm
    exact hs
  · have hw₁ := hh.sound hw
    have hs₁ := (hh.sameTables hw.inv).split hw.inv hroots hs
    obtain ⟨⟨y, m₂⟩, hmap, hm⟩ := Option.bind_eq_some_iff.mp hm
    have hs₂ := map_split hw₁.inv (by omega) (hw₁.full.topReady (by omega))
      (.inl (hw.inv.hand_loose f q)) hroots hs₁ hmap
    cases y with
    | ok u =>
      cases hm
      exact hs₂
    | error e =>
      cases e with
      | alreadyMapped => cases hm
      | cannotAllocatePageTable =>
        cases hm
        exact hs₂

/-- A page is allocated as in the map, where a failure changes nothing. -/
theorem Sees.allocMap (h : Sees w env) {r : SysResult Unit} {m' : Machine}
    (hv : pml4Index virt < 256) (hfl : fl < PAGE_SIZE)
    (hm : tables.allocMap w.m virt fl = some (r, m')) :
    ∃ w', w'.m = m' ∧ Confined w w' ∧
      ((r = .error .memoryExhausted ∧ Sees w' env) ∨
        ∃ f, r = .ok () ∧ f ∉ w.s.owners ∧ frame (f ||| fl) = f ∧ env.entry w.m.cr3 virt = 0 ∧
          Sees w' (env.setEntry w.m.cr3 virt (f ||| fl))) := by
  have hi := h.sound.inv
  have hsplit := allocMap_split h.sound hv hi.roots_place h.split hm
  obtain ⟨w', rfl, hend⟩ := allocMap_spec h.sound hv hm
  obtain ⟨hw', -, hconf⟩ := hend.sound h.sound hv hfl
  refine ⟨w', rfl, hconf, ?_⟩
  cases hend with
  | empty => exact .inl ⟨rfl, h⟩
  | @ends f q r w' handed mapped free =>
    have hsame := handed.sameTables hi
    have hwords₁ : Words env (w.hand f q).m.mem w.roots :=
      h.words.congr fun r hr v hv' => hsame.pageWord hi (hi.root_place hr) hv'
    cases r with
    | ok u =>
      obtain ⟨h0, hwords⟩ := mapped.words handed.inv (by omega) hsplit hwords₁
      have hframe : frame (f ||| fl) = f := by rw [frame_or f hfl, frame_aligned handed.aligned]
      exact .inr ⟨f, rfl, handed.unowned, hframe, h0, h.set hv hw' hconf hsplit hwords⟩
    | error e =>
      refine .inl ⟨rfl, h.keep hw' hconf hsplit fun r hr v hv' => ?_⟩
      have hplace : (w.hand f q).place r = some [] := hi.root_place hr
      rw [mapped.other (by omega) hplace hv' (fun hx => by cases hx)]
      exact hsame.pageWord hi (hi.root_place hr) hv'

end steps

/-! The loops of the calls. -/

section loops

variable {env : Syscall.Env} {fl : Nat}

/-- The frames that the loop of `alloc_page` takes can be chosen for the map. -/
theorem Sees.allocPages (h : Sees w env) {pages : List Nat} {r : SysResult Nat} {m' : Machine}
    (huser : ∀ v ∈ pages, pml4Index v < 256) (hfl : fl < PAGE_SIZE)
    (hm : PageCalls.allocPages tables fl pages w.m = some (r, m')) :
    ∃ w' frames s, w'.m = m' ∧ Confined w w' ∧
      PageCalls.allocPages (Syscall.tables w.m.cr3) fl pages ⟨env, frames⟩ = some (r, s) ∧
      Sees w' s.env := by
  induction pages generalizing w env with
  | nil =>
    cases hm
    exact ⟨w, [], _, rfl, .refl w, rfl, h⟩
  | cons addr rest ih =>
    obtain ⟨⟨x, m₁⟩, hx, hm⟩ := Option.bind_eq_some_iff.mp hm
    obtain ⟨w₁, rfl, hconf, ⟨rfl, h₁⟩ | ⟨f, rfl, -, -, h0, h₁⟩⟩ :=
      h.allocMap (huser addr List.mem_cons_self) hfl hx
    · cases hm
      exact ⟨w₁, [], _, rfl, hconf, rfl, h₁⟩
    · obtain ⟨w₂, frames, s, rfl, hconf', hs, h₂⟩ :=
        ih h₁ (fun v hv => huser v (List.mem_cons_of_mem _ hv)) hm
      refine ⟨w₂, f :: frames, s, rfl, hconf.trans hconf', ?_, h₂⟩
      rw [hconf.cr3] at hs
      simp only [PageCalls.allocPages, Syscall.tables, Syscall.Pages.allocMap, h0, ne_eq,
        not_true_eq_false, if_false, Option.bind_some]
      exact hs

theorem Sees.unmaps (h : Sees w env) {pages : List Nat} {m' : Machine}
    (huser : ∀ v ∈ pages, pml4Index v < 256) (hm : run tables.unmap w.m pages = some m') :
    ∃ w' env', w'.m = m' ∧ Confined w w' ∧
      run (Syscall.tables w.m.cr3).unmap ⟨env, []⟩ pages = some ⟨env', []⟩ ∧ Sees w' env' := by
  induction pages generalizing w env with
  | nil =>
    cases hm
    exact ⟨w, env, rfl, .refl w, rfl, h⟩
  | cons addr rest ih =>
    obtain ⟨m₁, hx, hm⟩ := Option.bind_eq_some_iff.mp hm
    obtain ⟨w₁, rfl, hconf, h0, h₁⟩ := h.unmap (huser addr List.mem_cons_self) hx
    obtain ⟨w₂, env', rfl, hconf', hs, h₂⟩ :=
      ih h₁ (fun v hv => huser v (List.mem_cons_of_mem _ hv)) hm
    refine ⟨w₂, env', rfl, hconf.trans hconf', ?_, h₂⟩
    rw [hconf.cr3] at hs
    simp only [run_cons, Syscall.tables, Syscall.Pages.unmap, h0, if_false, Option.bind_some]
    exact hs

theorem Sees.modifies (h : Sees w env) {pages : List Nat} {m' : Machine}
    (huser : ∀ v ∈ pages, pml4Index v < 256) (hfl : fl < PAGE_SIZE)
    (hm : run (PageCalls.modifyAs tables fl) w.m pages = some m') :
    ∃ w' env', w'.m = m' ∧ Confined w w' ∧
      run (PageCalls.modifyAs (Syscall.tables w.m.cr3) fl) ⟨env, []⟩ pages = some ⟨env', []⟩ ∧
      Sees w' env' := by
  induction pages generalizing w env with
  | nil =>
    cases hm
    exact ⟨w, env, rfl, .refl w, rfl, h⟩
  | cons addr rest ih =>
    obtain ⟨m₁, hx, hm⟩ := Option.bind_eq_some_iff.mp hm
    obtain ⟨w₁, rfl, hconf, h0, h₁⟩ := h.modify (huser addr List.mem_cons_self) hfl hx
    obtain ⟨w₂, env', rfl, hconf', hs, h₂⟩ :=
      ih h₁ (fun v hv => huser v (List.mem_cons_of_mem _ hv)) hm
    refine ⟨w₂, env', rfl, hconf.trans hconf', ?_, h₂⟩
    rw [hconf.cr3] at hs
    simp only [run_cons, PageCalls.modifyAs, Syscall.tables, Syscall.Pages.modify, h0, if_false,
      Option.bind_some]
    exact hs

/-- A frame of the map goes with every page, though none is taken in memory. -/
theorem Sees.mapsPhys (h : Sees w env) {pages : List (Nat × Nat)} {m' : Machine}
    (huser : ∀ x ∈ pages, pml4Index x.1 < 256) (hfl : fl < PAGE_SIZE)
    (hf : ∀ x ∈ pages, ¬ Phys.Managed w.m.phys.regions x.2)
    (hm : run (PageCalls.mapPhysAs tables fl) w.m pages = some m') :
    ∃ w' frames env', w'.m = m' ∧ Confined w w' ∧
      run (PageCalls.mapPhysAs (Syscall.tables w.m.cr3) fl) ⟨env, frames⟩ pages = some ⟨env', []⟩ ∧
      Sees w' env' := by
  induction pages generalizing w env with
  | nil =>
    cases hm
    exact ⟨w, [], env, rfl, .refl w, rfl, h⟩
  | cons page rest ih =>
    obtain ⟨m₁, hx, hm⟩ := Option.bind_eq_some_iff.mp hm
    obtain ⟨w₁, rfl, hconf, h0, h₁⟩ :=
      h.mapPhys (huser page List.mem_cons_self) hfl (hf page List.mem_cons_self) hx
    have hf₁ : ∀ x ∈ rest, ¬ Phys.Managed w₁.m.phys.regions x.2 := by
      rw [hconf.regions]
      exact fun x hx => hf x (List.mem_cons_of_mem _ hx)
    obtain ⟨w₂, frames, env', rfl, hconf', hs, h₂⟩ :=
      ih h₁ (fun v hv => huser v (List.mem_cons_of_mem _ hv)) hf₁ hm
    refine ⟨w₂, 0 :: frames, env', rfl, hconf.trans hconf', ?_, h₂⟩
    rw [hconf.cr3] at hs
    simp only [run_cons, PageCalls.mapPhysAs, Syscall.tables, Syscall.Pages.mapPhys, h0, ne_eq,
      not_true_eq_false, if_false, Option.bind_some]
    exact hs

end loops

/-! The checks of the calls. -/

theorem validateAvailable_congr {entry entry' : Nat → Option Nat} {pages : List Nat}
    (h : ∀ v ∈ pages, entry' v = entry v) :
    validateAvailable entry' pages = validateAvailable entry pages := by
  induction pages with
  | nil => rfl
  | cons a rest ih =>
    rw [validateAvailable, validateAvailable, h a List.mem_cons_self,
      ih fun v hv => h v (List.mem_cons_of_mem _ hv)]

theorem validateAvailable_cases {entry : Nat → Option Nat} {pages : List Nat} {r : SysResult Unit}
    (h : validateAvailable entry pages = some r) : r = .ok () ∨ r = .error .alreadyMapped := by
  induction pages with
  | nil =>
    cases h
    exact .inl rfl
  | cons a rest ih =>
    obtain ⟨e, -, h⟩ := Option.bind_eq_some_iff.mp h
    split at h
    · cases h
      exact .inr rfl
    · exact ih h

theorem validateAvailable_total (entry : Nat → Nat) (pages : List Nat) :
    ∃ r, validateAvailable (fun v => some (entry v)) pages = some r := by
  induction pages with
  | nil => exact ⟨_, rfl⟩
  | cons a rest ih =>
    by_cases h0 : entry a = 0
    · simp [validateAvailable, h0, ih]
    · simp [validateAvailable, h0]

/-- A check that finds a page whose entry is zero looks no further. -/
theorem validateMap_congr {entry entry' : Nat → Option Nat} {f : Nat} {l₁ l₂ : List Nat}
    (h : ∀ v ∈ l₁, entry' v = entry v)
    (hl : validateMap entry' f l₂ = validateMap entry f l₂) :
    validateMap entry' f (l₁ ++ l₂) = validateMap entry f (l₁ ++ l₂) := by
  induction l₁ with
  | nil => exact hl
  | cons a rest ih =>
    rw [List.cons_append, validateMap, validateMap, h a List.mem_cons_self,
      ih fun v hv => h v (List.mem_cons_of_mem _ hv)]

theorem validateMap_unmapped {entry : Nat → Option Nat} {f a : Nat} {l : List Nat}
    (h : entry a = some 0) : validateMap entry f (a :: l) = some (.error .badPointer) := by
  simp [validateMap, h]

/-- Before a range that wraps comes to the window, it comes to the temporary page. -/
theorem Inv.pages_temp (hi : Inv w) {r : PageRange} (ha : PAGE_SIZE ∣ r.basePage)
    (hb : r.basePage ≤ MAX_USER_ADDR) (h : r.Wraps) :
    ∃ l₁ a l₂, r.pages = l₁ ++ a :: l₂ ∧ (∀ v ∈ l₁, pml4Index v < 511) ∧
      indices a = indices w.m.tempPage := by
  obtain ⟨b, hbase⟩ := ha
  obtain ⟨hlo, hhi⟩ := hi.upper
  have hpage : 2 ^ 35 ≤ w.m.tempPage / 2 ^ 12 % 2 ^ 36 ∧
      w.m.tempPage / 2 ^ 12 % 2 ^ 36 < 511 * 2 ^ 27 := by
    simp only [pml4Index] at hlo hhi
    omega
  generalize hp : w.m.tempPage / 2 ^ 12 % 2 ^ 36 = p at hpage
  have hcount : (p - b) + 1 ≤ r.pageCount := by
    simp only [PageRange.Wraps, WORD, PAGE_SIZE, MAX_USER_ADDR] at h hb hbase
    omega
  obtain ⟨n, hn⟩ := Nat.exists_eq_add_of_le hcount
  have hrange : List.range r.pageCount = List.range (p - b) ++ (p - b) ::
      (List.range n).map (fun i => p - b + 1 + i) := by
    rw [hn, List.range_add, List.range_succ, List.append_assoc]
    rfl
  have hpages : r.pages = (List.range (p - b)).map (fun i => (r.basePage + i * PAGE_SIZE) % WORD) ++
      (r.basePage + (p - b) * PAGE_SIZE) % WORD :: ((List.range n).map (fun i => p - b + 1 + i)).map
        fun i => (r.basePage + i * PAGE_SIZE) % WORD := by
    rw [PageRange.pages, hrange, List.map_append, List.map_cons]
  refine ⟨_, _, _, hpages, ?_, ?_⟩
  · intro v hv
    obtain ⟨i, hi, rfl⟩ := List.mem_map.mp hv
    have hlt := List.mem_range.mp hi
    simp only [pml4Index, WORD, PAGE_SIZE, MAX_USER_ADDR] at *
    omega
  · have hidx : (r.basePage + (p - b) * PAGE_SIZE) % WORD = p * PAGE_SIZE := by
      simp only [WORD, PAGE_SIZE, MAX_USER_ADDR] at *
      omega
    rw [hidx]
    simp only [indices, pml4Index, pml3Index, pml2Index, pml1Index, PAGE_SIZE, List.cons.injEq,
      and_true]
    omega

section checks

variable {env : Syscall.Env} {virtualAddr pageCount : Nat} {range : PageRange}

theorem Sees.entry_eq (h : Sees w env) (frames : List Nat) {v : Nat} (hv : pml4Index v < 511) :
    (Syscall.tables w.m.cr3).entry ⟨env, frames⟩ v = tables.entry w.m v := by
  have hword := h.words w.m.cr3 List.mem_cons_self v hv
  rw [← h.sound.inv.pageEntry_eq] at hword
  exact hword.symm

theorem Sees.available (h : Sees w env) (frames : List Nat) {r : SysResult Unit}
    (hn : PageRange.new virtualAddr pageCount = .ok range)
    (hv : validateAvailable (tables.entry w.m) range.pages = some r) :
    validateAvailable ((Syscall.tables w.m.cr3).entry ⟨env, frames⟩) range.pages = some r := by
  obtain ⟨rfl, ha, hb, -, hend | hwrap⟩ := PageRange.new_ok hn
  · obtain ⟨huser, -⟩ := PageRange.pages_user (r := ⟨virtualAddr, pageCount⟩) ha hend
    rw [← hv]
    refine validateAvailable_congr fun v hm => h.entry_eq frames ?_
    have hidx := user_index (huser v hm).1
    omega
  · have hmem : 0xfffffffffffff000 ∈ PageRange.pages ⟨virtualAddr, pageCount⟩ :=
      PageRange.mem_pages_of_wraps ha hb hwrap (by decide) (by decide) (by decide)
    -- the window is mapped in both
    have hr : r = .error .alreadyMapped := by
      refine (validateAvailable_cases hv).resolve_left ?_
      rintro rfl
      obtain ⟨e, he, h0⟩ := h.sound.inv.window_mapped
      exact h0 (Option.some.inj (he.symm.trans (validateAvailable_ok hv _ hmem)))
    obtain ⟨r', hv'⟩ := validateAvailable_total (env.entry w.m.cr3)
      (PageRange.pages ⟨virtualAddr, pageCount⟩)
    have hr' : r' = .error .alreadyMapped := by
      refine (validateAvailable_cases hv').resolve_left ?_
      rintro rfl
      exact h.window _ (Option.some.inj (validateAvailable_ok hv' _ hmem))
    rw [hr, ← hr']
    exact hv'

theorem Sees.mapped (h : Sees w env) (frames : List Nat)
    (hn : PageRange.new virtualAddr pageCount = .ok range) :
    validateMap ((Syscall.tables w.m.cr3).entry ⟨env, frames⟩) 0 range.pages =
      validateMap (tables.entry w.m) 0 range.pages := by
  obtain ⟨rfl, ha, hb, -, hend | hwrap⟩ := PageRange.new_ok hn
  · obtain ⟨huser, -⟩ := PageRange.pages_user (r := ⟨virtualAddr, pageCount⟩) ha hend
    rw [← List.append_nil (PageRange.pages _)]
    refine validateMap_congr (fun v hm => h.entry_eq frames ?_) rfl
    have hidx := user_index (huser v hm).1
    omega
  · obtain ⟨l₁, a, l₂, hpages, hlow, hidx⟩ := h.sound.inv.pages_temp ha hb hwrap
    have htemp : tables.entry w.m a = some 0 := by
      have h0 := h.sound.temp_unmapped
      rw [h.sound.inv.pageEntry_eq, pageWord_indices ((tempAddr_indices w.m).trans hidx.symm)] at h0
      exact (h.sound.inv.pageEntry_eq a).trans h0
    have hupper : pml4Index a < 511 := by
      rw [(List.cons.inj hidx).1]
      exact h.sound.inv.upper.2
    rw [hpages]
    refine validateMap_congr (fun v hm => h.entry_eq frames (hlow v hm)) ?_
    rw [validateMap_unmapped htemp, validateMap_unmapped ((h.entry_eq frames hupper).trans htemp)]

theorem Sees.range_user (h : Sees w env) (hn : PageRange.new virtualAddr pageCount = .ok range)
    (hvalid : validateAvailable (tables.entry w.m) range.pages = some (.ok ()) ∨
      validateMap (tables.entry w.m) 0 range.pages = some (.ok ())) :
    ∀ v ∈ range.pages, pml4Index v < 256 :=
  fun v hv => user_index ((h.sound.range_user hn hvalid).1 v hv).1

end checks

/-! The calls. -/

/-- The call as the scheduler serves it. -/
def Call.served (v : Task.View Syscall.Env) (i : Syscall.Input) : Call → Syscall.Served
  | .allocPage a n fl => Syscall.allocPage v a n fl i
  | .releasePage a n => Syscall.releasePage v a n i
  | .modifyPage a n fl => Syscall.modifyPage v a n fl i
  | .mapPhysicalMemory a p n fl => Syscall.mapPhysicalMemory v a p n fl i

/-- What is done to the tables is done to the map, with some frames for its new pages. -/
def Done (w : World) (x : Option (SysResult Nat × Machine))
    (y : List Nat → Option (SysResult Nat × Syscall.Pages)) : Prop :=
  ∀ r m', x = some (r, m') → ∃ w' frames s, w'.m = m' ∧ Confined w w' ∧ y frames = some (r, s) ∧
    Sees w' s.env

section done

variable {env : Syscall.Env} {α : Type}

theorem Done.orFail (h : Sees w env) {x : SysResult α} {k : α → Option (SysResult Nat × Machine)}
    {k' : List Nat → α → Option (SysResult Nat × Syscall.Pages)}
    (hk : ∀ a, x = .ok a → Done w (k a) fun frames => k' frames a) :
    Done w (PageCalls.orFail w.m x k) fun frames =>
      PageCalls.orFail ⟨env, frames⟩ x (k' frames) := by
  cases x with
  | error e =>
    intro r m' hm
    cases hm
    exact ⟨w, [], ⟨env, []⟩, rfl, .refl w, rfl, h⟩
  | ok a => exact hk a rfl

theorem Done.bind {o : Option α} {o' : List Nat → Option α}
    {k : α → Option (SysResult Nat × Machine)}
    {k' : List Nat → α → Option (SysResult Nat × Syscall.Pages)}
    (ho : ∀ a, o = some a → ∀ frames, o' frames = some a)
    (hk : ∀ a, o = some a → Done w (k a) fun frames => k' frames a) :
    Done w (o.bind k) fun frames => (o' frames).bind (k' frames) := by
  intro r m' hm
  obtain ⟨a, ha, hm⟩ := Option.bind_eq_some_iff.mp hm
  obtain ⟨w', frames, s, hw', hconf, hs, h'⟩ := hk a ha r m' hm
  refine ⟨w', frames, s, hw', hconf, ?_, h'⟩
  simp only [ho a ha frames]
  exact hs

/-- A loop that must not fail ends a call. -/
theorem Done.loop {x : Option Machine} {y : List Nat → Option Syscall.Pages}
    (h : ∀ m', x = some m' → ∃ w' frames env', w'.m = m' ∧ Confined w w' ∧
      y frames = some ⟨env', []⟩ ∧ Sees w' env') :
    Done w (x.map fun m => (.ok OK, m)) fun frames => (y frames).map fun s => (.ok OK, s) := by
  intro r m' hm
  obtain ⟨m₁, hx, hm⟩ := Option.map_eq_some_iff.mp hm
  cases hm
  obtain ⟨w', frames, env', rfl, hconf, hy, h'⟩ := h m' hx
  refine ⟨w', frames, ⟨env', []⟩, rfl, hconf, ?_, h'⟩
  simp only [hy]
  rfl

variable {a n bits : Nat}

theorem Sees.allocPage (h : Sees w env) :
    Done w (PageCalls.allocPage tables w.m a n bits) fun frames =>
      PageCalls.allocPage (Syscall.tables w.m.cr3) ⟨env, frames⟩ a n bits := by
  apply Done.orFail h
  intro range hn
  apply Done.bind (fun x hx frames => h.available frames hn hx)
  intro x hx
  apply Done.orFail h
  rintro u rfl
  apply Done.orFail h
  intro fl hfl r m' hm
  obtain ⟨w', frames, s, hw', hconf, hs, h'⟩ :=
    h.allocPages (h.range_user hn (.inl hx)) (userPageFlags_lt hfl) hm
  exact ⟨w', frames, s, hw', hconf, hs, h'⟩

theorem Sees.releasePage (h : Sees w env) :
    Done w (PageCalls.releasePage tables w.m a n) fun frames =>
      PageCalls.releasePage (Syscall.tables w.m.cr3) ⟨env, frames⟩ a n := by
  apply Done.orFail h
  intro range hn
  apply Done.bind (fun x hx frames => (h.mapped frames hn).trans hx)
  intro x hx
  apply Done.orFail h
  rintro u rfl
  apply Done.loop
  intro m' hm
  obtain ⟨w', env', hw', hconf, hs, h'⟩ := h.unmaps (h.range_user hn (.inr hx)) hm
  exact ⟨w', [], env', hw', hconf, hs, h'⟩

theorem Sees.modifyPage (h : Sees w env) :
    Done w (PageCalls.modifyPage tables w.m a n bits) fun frames =>
      PageCalls.modifyPage (Syscall.tables w.m.cr3) ⟨env, frames⟩ a n bits := by
  apply Done.orFail h
  intro range hn
  apply Done.bind (fun x hx frames => (h.mapped frames hn).trans hx)
  intro x hx
  apply Done.orFail h
  rintro u rfl
  apply Done.orFail h
  intro fl hfl
  apply Done.loop
  intro m' hm
  obtain ⟨w', env', hw', hconf, hs, h'⟩ :=
    h.modifies (h.range_user hn (.inr hx)) (userPageFlags_lt hfl) hm
  exact ⟨w', [], env', hw', hconf, hs, h'⟩

theorem Sees.mapPhysicalMemory (h : Sees w env) {p : Nat}
    (hout : Outside w.m.phys.regions (.mapPhysicalMemory a p n bits)) :
    Done w (PageCalls.mapPhysicalMemory tables w.m a p n bits) fun frames =>
      PageCalls.mapPhysicalMemory (Syscall.tables w.m.cr3) ⟨env, frames⟩ a p n bits := by
  apply Done.orFail h
  intro range hn
  apply Done.bind (fun x hx frames => h.available frames hn hx)
  intro x hx
  apply Done.orFail h
  rintro u rfl
  apply Done.orFail h
  intro fl hfl
  apply Done.loop
  intro m' hm
  refine h.mapsPhys (fun x hx' => ?_) (userPageFlags_lt hfl) (fun x hx' => ?_) hm
  · exact h.range_user hn (.inl hx) x.1 (List.of_mem_zip hx').1
  · exact hout x.2 (List.of_mem_zip hx').2

end done

/-- A call does to the tables what it does to the map, and gives the same result. -/
theorem Sees.call {v : Task.View Syscall.Env} (h : Sees w v.env) (hcr3 : v.cr3 = w.m.cr3) {c : Call}
    {r : SysResult Nat} {m' : Machine} (hout : Outside w.m.phys.regions c)
    (hm : c.exec w.m = some (r, m')) :
    ∃ w' i env', w'.m = m' ∧ Confined w w' ∧ c.served v i = some (Syscall.finish env' r) ∧
      Sees w' env' := by
  obtain ⟨y, hdone, hserved⟩ : ∃ y : List Nat → Option (SysResult Nat × Syscall.Pages),
      Done w (c.exec w.m) y ∧
        ∀ frames, c.served v { frames := frames } = Syscall.paged (y frames) := by
    cases c with
    | allocPage a n bits => exact ⟨_, h.allocPage, fun frames => by rw [← hcr3]; rfl⟩
    | releasePage a n => exact ⟨_, h.releasePage, fun frames => by rw [← hcr3]; rfl⟩
    | modifyPage a n bits => exact ⟨_, h.modifyPage, fun frames => by rw [← hcr3]; rfl⟩
    | mapPhysicalMemory a p n bits =>
      exact ⟨_, h.mapPhysicalMemory hout, fun frames => by rw [← hcr3]; rfl⟩
  obtain ⟨w', frames, s, hw', hconf, hs, h'⟩ := hdone r m' hm
  refine ⟨w', { frames := frames }, s.env, hw', hconf, ?_, h'⟩
  rw [hserved, hs]
  rfl

end Crabos.Page
