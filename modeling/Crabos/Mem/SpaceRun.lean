import Crabos.Mem.Spaces

/-!
# Address spaces in runs of the kernel

What each operation of the kernel does to the tables: most of them change none,
and then a frame that no code holds keeps its bytes. So the user halves are
apart in every state of a run, and each of these states is seen as a map.
-/
namespace Crabos.Page

open Crabos.Words Crabos.Radix Crabos.Interface Crabos.User Crabos.Run

variable {w w' : World}

/-! The operations of the kernel. -/

def Kernel.roots (k : Kernel) : List Nat := k.m.cr3 :: k.ctxs

variable {k k' : Kernel}

theorem Holds.roots (h : Holds k w) : w.roots = k.roots := by
  rw [World.roots, Kernel.roots, h.m, h.ctxs]

theorem Holds.root_place (h : Holds k w) {r : Nat} (hr : r ∈ k.roots) : w.place r = some [] :=
  h.inv.root_place (h.roots ▸ hr)

/-- The bytes of a frame are as before. -/
def Untouched (mem mem' : Mem) (f : Nat) : Prop :=
  ∀ a, f ≤ a → a < f + PAGE_SIZE → mem' a = mem a

theorem Untouched.refl (mem : Mem) (f : Nat) : Untouched mem mem f := fun _ _ _ => rfl

theorem Untouched.trans {mem₁ mem₂ mem₃ : Mem} {f : Nat} (h₁ : Untouched mem₁ mem₂ f)
    (h₂ : Untouched mem₂ mem₃ f) : Untouched mem₁ mem₃ f :=
  fun a ha hb => (h₂ a ha hb).trans (h₁ a ha hb)

theorem untouched_of_outside {mem mem' : Mem} {f g : Nat} (hf : PAGE_SIZE ∣ f) (hg : PAGE_SIZE ∣ g)
    (hne : f ≠ g) (h : ∀ a, ¬ (g ≤ a ∧ a < g + PAGE_SIZE) → mem' a = mem a) :
    Untouched mem mem' f :=
  fun a ha hb => h a (Phys.frame_apart hg hf hne ha hb)

/-- A frame that has an owner and is neither a table nor held by code. -/
structure Settled (k : Kernel) (w : World) (f : Nat) : Prop where
  owned : f ∈ w.s.owners
  plain : w.place f = none
  free : f ∉ k.frames

theorem Settled.aligned {f : Nat} (hf : Settled k w f) (hi : Inv w) : PAGE_SIZE ∣ f := by
  obtain ⟨free, hphys⟩ := hi.phys
  exact (hphys.frame f hf.owned).1

/-- An operation that changes no table; at most one frame that is held is new. -/
structure Calm (k : Kernel) (w : World) (k' : Kernel) : Prop where
  roots : k'.roots ⊆ k.roots
  regions : k'.m.phys.regions = k.m.phys.regions
  finds : ∀ r ∈ k'.roots, ∀ is, Way is → find next k'.m.mem r is = find next k.m.mem r is
  words : ∀ r ∈ k'.roots, ∀ v, pml4Index v < 511 → pageWord k'.m.mem r v = pageWord k.m.mem r v
  frames : k'.frames.Sublist k.frames ∨ ∃ f, f ∉ w.s.owners ∧ k'.frames = f :: k.frames
  contents : ∀ f, Settled k w f → Untouched k.m.mem k'.m.mem f

/-- What an operation comes to. -/
inductive StepEnd (k : Kernel) (w : World) : Op → Kernel → Prop
  | calm {op : Op} {k' : Kernel} (same : Calm k w k') : StepEnd k w op k'
  | root {f : Nat} {q : Phys.PhysMem} {mem : Mem} (handed : Handed w f q)
      (new : NewRoot (w.hand f q) f mem) :
      StepEnd k w .newCtx ⟨((w.hand f q).root f mem).m, f :: k.ctxs, k.frames⟩
  | map {f virt fl : Nat} {r : Except MapError Unit} {m' : Machine} (index : pml4Index virt < 511)
      (flags : fl < PAGE_SIZE) (held : f ∈ k.frames ∨ ¬ Phys.Managed w.m.phys.regions f)
      (mapped : Page.map w.m f virt fl = some (r, m')) :
      StepEnd k w (.map f virt fl) ⟨m', k.ctxs, k.frames.erase f⟩
  | unmap {virt : Nat} {r : Except NotMapped Unit} {m' : Machine} (index : pml4Index virt < 511)
      (unmapped : Page.unmap w.m virt = some (r, m')) :
      StepEnd k w (.unmap virt) ⟨m', k.ctxs, k.frames⟩

theorem Calm.intro (h : Holds k w) {w₀ w₁ : World} (hi₀ : Inv w₀) (hmem₀ : w₀.m.mem = w.m.mem)
    (hroots : k'.roots ⊆ k.roots) (hplace : ∀ r ∈ k'.roots, w₀.place r = some [])
    (hsame : SameTables w₀ w₁) (hm : w₁.m = k'.m)
    (hreg : w₁.m.phys.regions = w.m.phys.regions)
    (hframes : k'.frames.Sublist k.frames ∨ ∃ f, f ∉ w.s.owners ∧ k'.frames = f :: k.frames)
    (hcontents : ∀ f, Settled k w f → Untouched w.m.mem w₁.m.mem f) : Calm k w k' where
  roots := hroots
  regions := by rw [← hm, hreg, h.m]
  finds r hr is hw := by
    rw [← hm, ← h.m, ← hmem₀]
    exact hsame.find hi₀ (hplace r hr) hw
  words r hr v hv := by
    rw [← hm, ← h.m, ← hmem₀]
    exact hsame.pageWord hi₀ (hplace r hr) hv
  frames := hframes
  contents := by
    rw [← hm, ← h.m]
    exact hcontents

theorem Calm.refl (k : Kernel) (w : World) : Calm k w k where
  roots := fun _ hr => hr
  regions := rfl
  finds _ _ _ _ := rfl
  words _ _ _ _ := rfl
  frames := .inl (List.Sublist.refl _)
  contents _ _ := .refl _ _

theorem Holds.share_calm (h : Holds k w) {c c' : Nat} {q : Phys.PhysMem} (hc : c ∈ k.roots)
    (hn : Phys.new k.m.phys c = .ok (c', q)) :
    Calm k w ⟨{ k.m with phys := q }, c' :: k.ctxs, k.frames⟩ := by
  rw [← h.m] at hn ⊢
  obtain ⟨rfl, hsame, -⟩ := new_spec h.inv (h.root_place hc) hn
  have hroots : Kernel.roots ⟨{ w.m with phys := q }, c' :: k.ctxs, k.frames⟩ ⊆ k.roots := by
    rw [Kernel.roots, Kernel.roots, h.m]
    rw [Kernel.roots] at hc
    simp [hc]
  refine .intro h h.inv rfl hroots (fun r hr => h.root_place (hroots hr)) hsame rfl hsame.regions
    (.inl (List.Sublist.refl _)) fun f hf a _ _ => ?_
  obtain ⟨free, hphys⟩ := h.inv.phys
  have hown := h.inv.owned (h.root_place hc)
  rw [← h.inv.same] at hn
  obtain ⟨-, rc, rfl, -⟩ := Phys.new_ok hphys.enabled (hphys.frame c' hown).1 hn
  change w.s.p.mem a = w.m.phys.mem a
  rw [h.inv.same]

theorem drop_cr3 {m m' : Machine} {f : Nat} (h : drop m f = some m') : m'.cr3 = m.cr3 := by
  rw [drop] at h
  split at h
  · cases h
    rfl
  · obtain ⟨a, -, h⟩ := Option.bind_eq_some_iff.mp h
    split at h
    · cases h
    · cases h
      rfl
  · cases h

/-- The drop of a context changes no other frame. -/
theorem Holds.dropCtx_calm (h : Holds k w) {w₀ : World} {c : Nat} {m' : Machine} (hi₀ : Inv w₀)
    (hmem₀ : w₀.m.mem = w.m.mem) (hreg : w₀.m.phys.regions = w.m.phys.regions) (hc : c ∈ w₀.ctxs)
    (hcw : c ∈ k.roots) (hctxs : k'.ctxs = w₀.ctxs.erase c) (hframes : k'.frames = k.frames)
    (hroots : k'.roots ⊆ k.roots) (hcr3 : k'.m = m') (hd : Page.drop w₀.m c = some m') :
    Calm k w k' := by
  obtain ⟨p, hm', hdr, -⟩ := dropCtx_spec hi₀ hc hd
  have hforget := hi₀.forget hc
  have hsame : SameTables (w₀.forget c) ((w₀.forget c).dropped c p) := hdr.sameTables
  refine .intro h hforget hmem₀ hroots ?_ hsame (hcr3.trans hm').symm (hsame.regions.trans hreg)
    (.inl (hframes ▸ List.Sublist.refl _)) fun f hf => ?_
  · intro r hr
    refine hforget.root_place ?_
    rw [Kernel.roots, hctxs, hcr3, hm'] at hr
    exact hr
  · have hca : PAGE_SIZE ∣ c := h.inv.table_aligned (h.root_place hcw)
    have hne : f ≠ c := by
      rintro rfl
      exact absurd (hf.plain.symm.trans (h.root_place hcw)) (by simp)
    rw [← hmem₀]
    exact untouched_of_outside (hf.aligned h.inv) hca hne hdr.outside

theorem step_ends {op : Op} (h : Holds k w) (hs : step k op = some k') : StepEnd k w op k' := by
  have hi := h.inv
  rw [step] at hs
  split at hs
  · rename_i he
    cases op with
    | newCtx =>
      obtain ⟨⟨x, m'⟩, hn, hk⟩ := Option.map_eq_some_iff.mp hs
      rw [← h.m] at hn
      rcases newCtx_spec hi hn with ⟨rfl, rfl⟩ | ⟨f, q, mem, rfl, rfl, hh, hnew, -⟩
      · rw [h.m] at hk
        cases hk
        exact .calm (.refl k w)
      · cases hk
        exact .root hh hnew
    | cloneCtx c =>
      obtain ⟨⟨c', p⟩, hn, hk⟩ := Option.map_eq_some_iff.mp hs
      cases hk
      exact .calm (h.share_calm (List.mem_cons_of_mem _ he) (toOption_some hn))
    | currentCtx =>
      obtain ⟨⟨c, m⟩, hc, hk⟩ := Option.map_eq_some_iff.mp hs
      obtain ⟨⟨c', p⟩, hn, hc⟩ := Option.map_eq_some_iff.mp hc
      cases hk
      cases hc
      exact .calm (h.share_calm List.mem_cons_self (toOption_some hn))
    | dropCtx c =>
      obtain ⟨m', hd, hk⟩ := Option.map_eq_some_iff.mp hs
      cases hk
      have hc : c ∈ k.ctxs := he
      have hcr3 := drop_cr3 hd
      rw [← h.m] at hd
      refine .calm (h.dropCtx_calm hi rfl rfl (h.ctxs ▸ hc) (List.mem_cons_of_mem _ hc)
        (h.ctxs ▸ rfl) rfl ?_ rfl hd)
      rw [Kernel.roots, hcr3]
      exact List.cons_subset_cons _ List.erase_subset
    | setCtx c =>
      obtain ⟨m', hd, hk⟩ := Option.map_eq_some_iff.mp hs
      cases hk
      have hc : c ∈ k.ctxs := he
      have hcr3 : m'.cr3 = c := drop_cr3 hd
      have hcw : c ∈ w.ctxs := h.ctxs ▸ hc
      change drop { k.m with cr3 := c } k.m.cr3 = some m' at hd
      rw [← h.m] at hd
      refine .calm (h.dropCtx_calm (hi.switch hcw) rfl rfl List.mem_cons_self ?_ ?_ rfl ?_ rfl hd)
      · rw [h.m]
        exact List.mem_cons_self
      · change k.ctxs.erase c = (w.m.cr3 :: w.ctxs.erase c).erase w.m.cr3
        rw [List.erase_cons_head, h.ctxs]
      · rw [Kernel.roots, hcr3]
        intro r hr
        rcases List.mem_cons.mp hr with rfl | hr
        · exact List.mem_cons_of_mem _ hc
        · exact List.mem_cons_of_mem _ (List.mem_of_mem_erase hr)
    | alloc =>
      obtain ⟨⟨x, m'⟩, ha, hk⟩ := Option.map_eq_some_iff.mp hs
      rw [← h.m] at ha
      rcases alloc_spec hi ha with ⟨rfl, rfl⟩ | ⟨f, q, rfl, rfl, hh⟩
      · rw [h.m] at hk
        cases hk
        exact .calm (.refl k w)
      · cases hk
        have hsame := hh.sameTables hi
        have hroots : Kernel.roots ⟨{ w.m with phys := q }, k.ctxs, f :: k.frames⟩ ⊆ k.roots := by
          rw [Kernel.roots, Kernel.roots, h.m]
          exact fun _ hr => hr
        refine .calm (.intro h hi rfl hroots (fun r hr => h.root_place (hroots hr)) hsame rfl
          hsame.regions (.inr ⟨f, hh.unowned, rfl⟩) fun g hg => ?_)
        refine untouched_of_outside (hg.aligned hi) hh.aligned ?_ hh.outside
        rintro rfl
        exact hh.unowned hg.owned
    | drop f =>
      obtain ⟨m', hd, hk⟩ := Option.map_eq_some_iff.mp hs
      cases hk
      have hf : f ∈ k.frames := he
      rw [← h.m] at hd
      obtain ⟨p, rfl, hdr⟩ := drop_spec hi ((h.loose hf).dropping hi) hd
      have hsame : SameTables w (w.dropped f p) := hdr.sameTables
      have hroots : Kernel.roots ⟨{ w.m with phys := p }, k.ctxs, k.frames.erase f⟩ ⊆ k.roots := by
        rw [Kernel.roots, Kernel.roots, h.m]
        exact fun _ hr => hr
      refine .calm (.intro h hi rfl hroots (fun r hr => h.root_place (hroots hr)) hsame rfl
        hsame.regions (.inl List.erase_sublist) fun g hg => ?_)
      obtain ⟨free, hphys⟩ := hi.phys
      have hfa : PAGE_SIZE ∣ f := (hphys.frame f (h.owner hf)).1
      refine untouched_of_outside (hg.aligned hi) hfa ?_ hdr.outside
      rintro rfl
      exact hg.free hf
    | map f virt flags =>
      obtain ⟨⟨r, m'⟩, hm, hk⟩ := Option.map_eq_some_iff.mp hs
      cases hk
      obtain ⟨hv, hfl, hf⟩ := he
      have hlt := pml4Index_lt virt
      rw [← h.m] at hm hf
      exact .map (by omega) (Nat.lt_of_le_of_lt hfl (by decide)) hf hm
    | unmap virt =>
      obtain ⟨⟨r, m'⟩, hu, hk⟩ := Option.map_eq_some_iff.mp hs
      cases hk
      have hlt := pml4Index_lt virt
      have hv : pml4Index virt ≠ 511 := he
      rw [← h.m] at hu
      exact .unmap (by omega) hu
  · cases hs

/-! Tables of the user half in every state. -/

theorem Holds.givable (h : Holds k w) {f : Nat}
    (hf : f ∈ k.frames ∨ ¬ Phys.Managed w.m.phys.regions f) : Givable w f := hf.imp h.loose id

theorem map_cr3 (hi : Inv w) {f virt fl : Nat} {r : Except MapError Unit} {m' : Machine}
    (hv : pml4Index virt < 511) (htop : TopReady w virt) (hf : Givable w f)
    (h : map w.m f virt fl = some (r, m')) : m'.cr3 = w.m.cr3 := by
  rcases hf with hf | hf
  · obtain ⟨w', rfl, hend⟩ := map_spec hi hv htop hf h
    exact hend.same.1
  · obtain ⟨w', rfl, hend⟩ := mapForeign_spec hi hv htop hf h
    cases hend with
    | done ext inv last empty => exact ext.cr3
    | fails ext inv e => exact ext.cr3

theorem StepEnd.split {op : Op} (he : StepEnd k w op k') (h : Holds k w)
    (hs : Split k.m.mem k.roots) : Split k'.m.mem k'.roots := by
  have hi := h.inv
  cases he with
  | calm same => exact (hs.subset same.roots).congr same.finds
  | @root f q mem handed new =>
    rw [← h.m] at hs
    have hs₁ := (handed.sameTables hi).split hi (fun _ hr => h.root_place hr) hs
    refine (new.split handed.inv (fun _ hr => h.root_place hr) hs₁).subset ?_
    rw [Kernel.roots, Kernel.roots, ← h.m]
    exact (List.Perm.swap f w.m.cr3 k.ctxs).subset
  | map index flags held mapped =>
    have htop := h.full.topReady index
    rw [← h.m] at hs
    rw [Kernel.roots, map_cr3 hi index htop (h.givable held) mapped, h.m]
    exact map_split hi index htop (h.givable held) (fun _ hr => h.root_place hr) hs mapped
  | unmap index unmapped =>
    obtain ⟨w', rfl, hend⟩ := unmap_spec hi index unmapped
    rw [← h.m] at hs
    rw [Kernel.roots, hend.cr3, h.m]
    exact hend.split hi index (fun _ hr => h.root_place hr) hs

/-- The map that is read off the tables. -/
theorem Inv.shown (hi : Inv w) : ∃ env : Syscall.Env, Words env w.m.mem w.roots ∧
    ∀ c, env.entry c 0xfffffffffffff000 ≠ 0 := by
  refine ⟨{ entries := fun key =>
      (pageWord w.m.mem (key.1.getD w.m.cr3) (key.2 * PAGE_SIZE)).getD 0
            handles := fun _ => [], files := fun _ => .new, keyboard := [], nextCtx := 0
            nextFile := 0, accesses := [] }, ?_, ?_⟩
  · intro r hr v hv
    have hroot := hi.root_place hr
    have hpage : indices (v / PAGE_SIZE % 2 ^ 36 * PAGE_SIZE) = indices v := by
      rw [indices_page, Nat.mul_div_cancel _ (by decide), Nat.mod_mod]
    have hword := hi.linked.pageWord_eq hroot hv
    by_cases hhalf : pml4Index v < 256
    · simp only [Syscall.Env.entry, pageKey_user r hhalf, Option.getD_some]
      rw [pageWord_indices hpage, hword, Option.getD_some]
    · have hkey := pageKey_kernel (v := v) (by omega) r w.m.cr3 rfl
      have hkernel := (hi.kernel_entries hi.loaded hroot (by omega) hv).2
      have hnone : (Syscall.pageKey r v).1 = none := by
        have hhigh : ¬ v / PAGE_SIZE % 2 ^ 36 < 2 ^ 35 := by
          simp only [pml4Index, PAGE_SIZE] at hhalf ⊢
          omega
        simp only [Syscall.pageKey, if_neg hhigh]
      simp only [Syscall.Env.entry, hnone, Option.getD_none]
      change _ = some ((pageWord w.m.mem w.m.cr3 (v / PAGE_SIZE % 2 ^ 36 * PAGE_SIZE)).getD 0)
      rw [pageWord_indices hpage, hkernel, hword, Option.getD_some]
  · intro c h0
    obtain ⟨e, he, hne⟩ := hi.window_mapped
    rw [hi.pageEntry_eq] at he
    change (pageWord w.m.mem w.m.cr3 ((2 ^ 36 - 1) * PAGE_SIZE)).getD 0 = 0 at h0
    have hidx : indices ((2 ^ 36 - 1) * PAGE_SIZE) = indices 0xfffffffffffff000 := by decide
    rw [pageWord_indices hidx, he] at h0
    exact hne h0

theorem Ready.sees (h : Ready k w) (hs : Split k.m.mem k.roots) {env : Syscall.Env}
    (hwords : Words env k.m.mem k.roots) (hwindow : ∀ c, env.entry c 0xfffffffffffff000 ≠ 0) :
    Sees w env := by
  refine ⟨h.fit.sound, ?_, ?_, hwindow⟩
  · rw [h.holds.roots, h.holds.m]
    exact hs
  · rw [h.holds.roots, h.holds.m]
    exact hwords

theorem Ready.shown (h : Ready k w) (hs : Split k.m.mem k.roots) : ∃ env, Sees w env := by
  obtain ⟨env, hwords, hwindow⟩ := h.holds.inv.shown
  rw [h.holds.roots, h.holds.m] at hwords
  exact ⟨env, h.sees hs hwords hwindow⟩

theorem call_split (h : Ready k w) (hs : Split k.m.mem k.roots) {c : Call} {r : SysResult Nat}
    {m' : Machine} (hout : Outside k.m.phys.regions c) (hc : c.exec k.m = some (r, m')) :
    Split m'.mem (m'.cr3 :: k.ctxs) := by
  obtain ⟨env, hsees⟩ := h.shown hs
  rw [← h.holds.m] at hout hc
  obtain ⟨w', i, env', rfl, hconf, -, hsees'⟩ :=
    Sees.call (v := ⟨0, 0, w.m.cr3, env⟩) hsees rfl hout hc
  have hs' := hsees'.split
  rw [World.roots, hconf.ctxs, h.holds.ctxs] at hs'
  exact hs'

theorem kernelStep_split {e : Event} (h : Ready k w) (hs : Split k.m.mem k.roots)
    (ha : Allowed k e) (hstep : kernelStep k e = some k') : Split k'.m.mem k'.roots := by
  cases e with
  | op o => exact (step_ends h.holds hstep).split h.holds hs
  | call c =>
    obtain ⟨⟨r, m'⟩, hc, hk⟩ := Option.map_eq_some_iff.mp hstep
    cases hk
    exact call_split h hs ha hc
  | store virt value =>
    obtain ⟨m', hst, hk⟩ := Option.map_eq_some_iff.mp hstep
    cases hk
    rw [← h.holds.m] at hst hs
    obtain ⟨a, rfl, hsame, -⟩ := userStore_spec h.fit hst
    have hs' := hsame.split h.holds.inv (fun _ hr => h.holds.root_place hr) hs
    rw [Kernel.roots, ← h.holds.m] at hs'
    exact hs'

/-- A single PML4 shares nothing. -/
theorem split_single (mem : Mem) (r : Nat) : Split mem [r] := by
  intro a ha b hb _ _ _ _ _ _ _
  rw [List.mem_singleton.mp ha, List.mem_singleton.mp hb]

theorem Booted.run_split {frames : List Nat} {m : Machine} {evs : List Event} {k : Kernel}
    (h : Booted w frames) (hinit : initKernelPml4Entries w.m = some m)
    (hallowed : Along kernelStep Allowed ⟨m, [], frames⟩ evs)
    (hrun : Run.run kernelStep ⟨m, [], frames⟩ evs = some k) :
    ∃ w', Ready k w' ∧ Split k.m.mem k.roots := by
  refine invariant_along (I := fun k => ∃ w, Ready k w ∧ Split k.m.mem k.roots) ?_ ?_ hallowed hrun
  · rintro k e k' ⟨w, hw, hs⟩ ha hstep
    obtain ⟨w', hw'⟩ := kernelStep_ready hw ha hstep
    exact ⟨w', hw', kernelStep_split hw hs ha hstep⟩
  · obtain ⟨w', hw'⟩ := h.ready hinit
    exact ⟨w', hw', split_single _ _⟩

/-- The map shows the entries of all pages, and that the window is there. -/
structure Shows (env : Syscall.Env) (mem : Mem) (roots : List Nat) : Prop where
  words : Words env mem roots
  window : ∀ c, env.entry c 0xfffffffffffff000 ≠ 0

theorem bootAllowed : Along kernelStep Allowed ⟨bootWorld.m, [], []⟩ bootEvents := by
  apply along_of_forall
  intro k e he
  rcases List.mem_pair.mp he with rfl | rfl <;> trivial

end Crabos.Page
