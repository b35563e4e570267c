import Crabos.Mem.TlbFresh

/-!
# The TLB over whole runs

The operations of `page.rs` in any order, on a processor that may fill its TLB
before and within each of them. A `TempMap` is made and dropped with nothing
between that changes tables: the code of its critical section only uses the
page. As long as no `modify` changes the flags of a page that is present, every
cached translation is right after each operation.
-/
namespace Crabos.Page

open Crabos.Words Crabos.Radix Crabos.Interface Crabos.User Crabos.Run

/-- The kernel with its TLB; `temp` says that there is a `TempMap`. -/
structure Core where
  k : Kernel
  tlb : Cache
  temp : Bool

def Core.cpu (s : Core) : Cpu := ⟨s.k.m, s.tlb⟩

inductive Act where
  | op (o : Op)
  | modify (virt flags : Nat)
  | tempMap (phys : Nat)
  | tempReset
  deriving DecidableEq, Repr

/-- An operation on the processor. -/
def Cpu.exec (c : Cpu) : Op → Option Cpu
  | .newCtx => c.newCtx.map Prod.snd
  | .cloneCtx ctx => (Phys.clone c.m.phys ctx).toOption.map fun (_, p) =>
    c.set { c.m with phys := p }
  | .currentCtx => (currentCtx c.m).map fun (_, m) => c.set m
  | .dropCtx ctx => c.drop ctx
  | .setCtx ctx => c.setCtx ctx
  | .alloc => c.alloc.map Prod.snd
  | .drop f => c.drop f
  | .map f virt flags => (c.map f virt flags).map Prod.snd
  | .unmap virt => (c.unmap virt).map Prod.snd

/-- The kernel goes on with this processor. -/
def Core.on (s : Core) (temp : Bool) (c : Cpu) : Core :=
  { k := { s.k with m := c.m }, tlb := c.tlb, temp := temp }

def coreStep (s : Core) : Act → Option Core
  | .op o =>
    if s.temp then none
    else (step s.k o).bind fun k => (s.cpu.fill.exec o).map fun c => { k := k, tlb := c.tlb, temp := false }
  | .modify virt flags =>
    if s.temp = false ∧ pml4Index virt ≠ 511 ∧ flags ≤ PageFlags.all then
      (s.cpu.fill.modify virt flags).map fun (_, c) => s.on false c
    else none
  | .tempMap phys => if s.temp then none else (s.cpu.fill.tempMap phys).map (s.on true)
  | .tempReset => s.cpu.fill.tempReset.map (s.on false)

variable {s s' : Core} {w w' : World} {c c' : Cpu} {k k' : Kernel}

/-- The processor does what the kernel does. -/
theorem exec_m {o : Op} (hk : exec k o = some k') (hm : c.m = k.m) (hc : c.exec o = some c') :
    c'.m = k'.m := by
  cases o with
  | newCtx =>
    obtain ⟨⟨x, c₁⟩, h, rfl⟩ := Option.map_eq_some_iff.mp hc
    have h := newCtx_m h
    rw [hm] at h
    rw [exec, h] at hk
    cases hk
    rfl
  | cloneCtx ctx =>
    obtain ⟨⟨x, p⟩, h, rfl⟩ := Option.map_eq_some_iff.mp hc
    rw [hm] at h
    rw [exec, h] at hk
    cases hk
    rw [set_m, hm]
  | currentCtx =>
    obtain ⟨⟨x, m⟩, h, rfl⟩ := Option.map_eq_some_iff.mp hc
    rw [hm] at h
    rw [exec, h] at hk
    cases hk
    rfl
  | dropCtx ctx =>
    have h := drop_m hc
    rw [hm] at h
    rw [exec, h] at hk
    cases hk
    rfl
  | setCtx ctx =>
    have h := setCtx_m hc
    rw [hm] at h
    rw [exec, h] at hk
    cases hk
    rfl
  | alloc =>
    obtain ⟨⟨x, c₁⟩, h, rfl⟩ := Option.map_eq_some_iff.mp hc
    have h := alloc_m h
    rw [hm] at h
    rw [exec, h] at hk
    cases hk
    rfl
  | drop f =>
    have h := drop_m hc
    rw [hm] at h
    rw [exec, h] at hk
    cases hk
    rfl
  | map f virt flags =>
    obtain ⟨⟨x, c₁⟩, h, rfl⟩ := Option.map_eq_some_iff.mp hc
    have h := map_m h
    rw [hm] at h
    rw [exec, h] at hk
    cases hk
    rfl
  | unmap virt =>
    obtain ⟨⟨x, c₁⟩, h, rfl⟩ := Option.map_eq_some_iff.mp hc
    have h := unmap_m h
    rw [hm] at h
    rw [exec, h] at hk
    cases hk
    rfl

theorem exec_fresh {o : Op} (h : Holds k w) (he : Enabled k o) (hm : c.m = k.m) (hf : c.Fresh)
    (hc : c.exec o = some c') : c'.Fresh := by
  have hmw : c.m = w.m := hm.trans h.m.symm
  cases o with
  | newCtx =>
    obtain ⟨⟨x, c₁⟩, hx, rfl⟩ := Option.map_eq_some_iff.mp hc
    exact newCtx_fresh h.inv hmw hf hx
  | cloneCtx ctx =>
    obtain ⟨⟨x, p⟩, hx, rfl⟩ := Option.map_eq_some_iff.mp hc
    rw [hmw] at hx
    obtain ⟨-, hsame, -⟩ := new_spec h.inv (h.inv.ctx ctx (h.ctxs ▸ he)) (toOption_some hx)
    refine hf.set ?_
    rw [hmw]
    exact h.inv.keeps rfl hsame.mem
  | currentCtx =>
    obtain ⟨⟨x, m⟩, hx, rfl⟩ := Option.map_eq_some_iff.mp hc
    obtain ⟨⟨y, p⟩, hy, hx⟩ := Option.map_eq_some_iff.mp hx
    cases hx
    rw [hmw] at hy
    obtain ⟨-, hsame, -⟩ := new_spec h.inv h.inv.loaded (toOption_some hy)
    refine hf.set ?_
    rw [hmw]
    exact h.inv.keeps rfl hsame.mem
  | dropCtx ctx =>
    have hctx : ctx ∈ w.ctxs := h.ctxs ▸ he
    have hi := h.inv.forget hctx
    exact drop_fresh hi hmw hf ((h.inv.forget_loose hctx).droppable hi) hc
  | setCtx ctx => exact setCtx_fresh h.inv hmw (h.ctxs ▸ he) hc
  | alloc =>
    obtain ⟨⟨x, c₁⟩, hx, rfl⟩ := Option.map_eq_some_iff.mp hc
    exact alloc_fresh h.inv hmw hf hx
  | drop f => exact drop_fresh h.inv hmw hf ((h.loose he).droppable h.inv) hc
  | map f virt flags =>
    obtain ⟨⟨x, c₁⟩, hx, rfl⟩ := Option.map_eq_some_iff.mp hc
    obtain ⟨hv, -, hg⟩ := he
    have hv : pml4Index virt < 511 := by
      have := pml4Index_lt virt
      omega
    exact map_fresh h.inv hmw hf hv (h.full.topReady hv) (hg.imp h.loose fun hn => h.m ▸ hn) hx
  | unmap virt =>
    obtain ⟨⟨x, c₁⟩, hx, rfl⟩ := Option.map_eq_some_iff.mp hc
    have hv : pml4Index virt ≠ 511 := he
    have hlt := pml4Index_lt virt
    exact unmap_fresh h.inv hmw hf (by omega) hx

/-! `temp_map`, `temp_reset` and `modify` -/

theorem Cpu.Fresh.fill (h : c.Fresh) : c.fill.Fresh := by
  rintro virt es (hc | hp)
  · exact h virt es hc
  · exact hp

theorem write_eq_self {a v : Nat} (h : w.m.mem a = v) : (w.write a v).m = w.m := by
  have hu : Function.update w.m.mem a v = w.m.mem := by
    rw [← h]
    exact Function.update_eq_self _ _
  change w.m.setMem (Function.update w.m.mem a v) = w.m
  rw [hu]
  rfl

theorem tempMap_spec (hi : Inv w) (hm : c.m = w.m) {f : Nat} (h : c.tempMap f = some c') :
    ∃ t e, find next w.m.mem w.m.cr3 (lastTable w.m.tempPage) = some t ∧
      w.m.mem (slot t (pml1Index w.m.tempPage)) = 0 ∧
      c'.m = (w.write (slot t (pml1Index w.m.tempPage)) e).m ∧ (c.Fresh → c'.Fresh) := by
  obtain ⟨e, he, h⟩ := Option.bind_eq_some_iff.mp h
  rw [hm] at he
  obtain ⟨a, ha, hmem⟩ := Option.map_eq_some_iff.mp he
  obtain ⟨t, ht, rfl⟩ := find_last (hi.linked.self _ hi.loaded) ha
  split at h
  · cases h
  · rename_i h0
    rw [← hmem, ne_eq, not_not] at h0
    obtain ⟨c₁, hs, h⟩ := Option.map_eq_some_iff.mp h
    obtain ⟨m₁, hm₁, rfl⟩ := Option.map_eq_some_iff.mp hs
    rw [hm, hi.store_last ht] at hm₁
    cases hm₁
    subst h
    refine ⟨t, _, ht, h0, rfl, fun hf => (hf.set ?_).invlpg _⟩
    rw [hm]
    refine keeps_update ?_ _
    rw [h0]
    rfl

theorem tempReset_spec (hi : Inv w) {t e : Nat}
    (ht : find next w.m.mem w.m.cr3 (lastTable w.m.tempPage) = some t)
    (hm : c.m = (w.write (slot t (pml1Index w.m.tempPage)) e).m) (h : c.tempReset = some c') :
    c'.m = (w.write (slot t (pml1Index w.m.tempPage)) 0).m ∧ (c.Fresh → c'.Fresh) := by
  have hl := hi.last hi.upper.2 ht
  have hone := hi.write_oneSlot hl e
  have ht' : find next c.m.mem c.m.cr3 (lastTable w.m.tempPage) = some t := by
    rw [hm]
    exact (hone.find hi hi.loaded (way_lastTable hi.upper.2)).trans ht
  have hself := (hone.linked hi).self _ hi.loaded
  obtain ⟨c₁, hs, h⟩ := Option.map_eq_some_iff.mp h
  obtain ⟨m₁, hm₁, rfl⟩ := Option.map_eq_some_iff.mp hs
  have hst := store_points hself (points_pml1Entry w.m.tempPage) 0
  rw [lastTable, hm] at ht'
  rw [ht', Option.map_some] at hst
  rw [hm] at hm₁
  cases hm₁.symm.trans hst
  subst h
  refine ⟨?_, fun hf => ?_⟩
  · change w.m.setMem (Function.update (Function.update w.m.mem _ e) _ 0) = _
    rw [Function.update_idem]
    rfl
  · refine hf.clear ?_
    rw [hm]
    refine Linked.keeps_last (hone.linked hi) hi.loaded hl.1 rfl fun u q i hu hlt hne => ?_
    exact Function.update_of_ne (fun hs => hne (hi.slot_inj hu hl.1 hlt hl.2.2 hs)) _ _

/-- A cached translation of a page stays behind when its flags change. -/
theorem modify_stale (hi : Inv w) (hm : c.m = w.m) {virt flags : Nat} {r : Except NotMapped Unit}
    (hv : pml4Index virt < 511) (hk : ¬ KeepsFlags w.m virt flags)
    (h : c.fill.modify virt flags = some (r, c')) : ¬ c'.Fresh := by
  rw [KeepsFlags] at hk
  push Not at hk
  obtain ⟨e, hword, hp, hne⟩ := hk
  have h0 : e ≠ 0 := by
    rintro rfl
    cases hp
  obtain ⟨t, ht, he⟩ := find_of_pageWord hword h0
  have hnext : next (w.m.mem (slot t (pml1Index virt))) = some (frame e) := by
    rw [he, next, if_pos hp]
  have hpath : c.m.path virt = some (entries next w.m.mem w.m.cr3 (indices virt)) := by
    rw [hm]
    exact path_eq_some.mpr ⟨_, find_snoc ht hnext, rfl⟩
  obtain ⟨x, hx, h⟩ := Option.bind_eq_some_iff.mp h
  change checkedPml1Entry c.m virt = some x at hx
  rw [hm, hi.checked_eq, hword, Option.map_some, if_neg h0] at hx
  cases hx
  obtain ⟨e', he', h⟩ := Option.bind_eq_some_iff.mp h
  change load c.m (pml1Entry virt) = some e' at he'
  rw [hm, hi.load_last ht, he] at he'
  cases he'
  obtain ⟨c₁, hs, h⟩ := Option.map_eq_some_iff.mp h
  cases h
  obtain ⟨m₁, hm₁, rfl⟩ := Option.map_eq_some_iff.mp hs
  change store c.m (pml1Entry virt) (setFlags e flags) = some m₁ at hm₁
  rw [hm, hi.store_last ht] at hm₁
  cases hm₁
  intro hf
  obtain ⟨u, -, hent⟩ := path_eq_some.mp (hf virt _ (.inl (.inr hpath)))
  have hone := hi.write_oneSlot (hi.last hv ht) (setFlags e flags)
  have ht' := (hone.find hi hi.loaded (way_lastTable hv)).trans ht
  change entries next (w.write _ (setFlags e flags)).m.mem w.m.cr3 (lastTable virt ++ [pml1Index virt]) =
    entries next w.m.mem w.m.cr3 (lastTable virt ++ [pml1Index virt]) at hent
  rw [entries_snoc ht, entries_snoc ht', write_self, he] at hent
  exact hne (List.cons.inj (List.append_inj_right' hent rfl)).1

/-! Runs. -/

/-- A world behind the kernel. While there is a `TempMap`, the entry of the
temporary page is empty in the world. -/
inductive Behind (s : Core) (w : World) : Prop
  | plain (temp : s.temp = false) (holds : Holds s.k w)
  | mapped {t e : Nat} (temp : s.temp = true) (holds : Holds { s.k with m := w.m } w)
      (last : find next w.m.mem w.m.cr3 (lastTable w.m.tempPage) = some t)
      (empty : w.m.mem (slot t (pml1Index w.m.tempPage)) = 0)
      (entry : s.k.m = (w.write (slot t (pml1Index w.m.tempPage)) e).m)

/-- A `modify` leaves the flags of a page that is present as they are. -/
def Harmless (s : Core) : Act → Prop
  | .modify virt flags => KeepsFlags s.k.m virt flags
  | _ => True

theorem Behind.op (hb : Behind s w) {o : Op} (h : coreStep s (.op o) = some s') :
    ∃ w', Behind s' w' ∧ (s.cpu.Fresh → s'.cpu.Fresh) := by
  rw [coreStep] at h
  split at h
  · cases h
  · rename_i htemp
    cases hb with
    | mapped temp holds last empty entry => exact absurd temp htemp
    | plain temp holds =>
      obtain ⟨k', hk, h⟩ := Option.bind_eq_some_iff.mp h
      obtain ⟨c', hc, rfl⟩ := Option.map_eq_some_iff.mp h
      obtain ⟨w', holds', -⟩ := step_holds holds hk
      rw [step] at hk
      split at hk
      · rename_i he
        refine ⟨w', .plain rfl holds', fun hf => ?_⟩
        have hf' := exec_fresh (c := s.cpu.fill) holds he rfl hf.fill hc
        have hm := exec_m (c := s.cpu.fill) hk rfl hc
        intro virt es hx
        have hpath := hf' virt es hx
        rw [hm] at hpath
        exact hpath
      · cases hk

theorem Behind.modify (hb : Behind s w) {virt flags : Nat}
    (h : coreStep s (.modify virt flags) = some s') :
    ∃ w', Behind s' w' ∧ (s.cpu.Fresh → Harmless s (.modify virt flags) → s'.cpu.Fresh) ∧
      (¬ Harmless s (.modify virt flags) → ¬ s'.cpu.Fresh) := by
  rw [coreStep] at h
  split at h
  · rename_i hen
    obtain ⟨htemp, hv, hfl⟩ := hen
    have hv : pml4Index virt < 511 := by
      have := pml4Index_lt virt
      omega
    have hlt : flags < PAGE_SIZE := Nat.lt_of_le_of_lt hfl (by decide)
    cases hb with
    | mapped temp holds last empty entry =>
      rw [htemp] at temp
      cases temp
    | plain temp holds =>
      obtain ⟨⟨r, c'⟩, hc, rfl⟩ := Option.map_eq_some_iff.mp h
      have hm : s.cpu.fill.m = w.m := holds.m.symm
      obtain ⟨w', hw', hend⟩ := modify_spec holds.inv (hm ▸ modify_m hc)
      have hinv := hend.inv holds.inv hv hlt
      refine ⟨w', .plain rfl ?_, fun hf hk => ?_, fun hk => ?_⟩
      · cases hend with
        | fails word => exact ⟨hw', holds.ctxs, holds.inv, holds.full, holds.owned⟩
        | done last entry some =>
          exact ⟨hw', holds.ctxs, hinv,
            (setEntry_oneSlot holds.inv (holds.inv.last hv last) _).full holds.inv holds.full,
            holds.owned⟩
      · exact modify_fresh holds.inv hm hf.fill (holds.m ▸ hk) hc
      · exact modify_stale (c := s.cpu) holds.inv hm hv (holds.m ▸ hk) hc
  · cases h

theorem Behind.tempMap (hb : Behind s w) {f : Nat} (h : coreStep s (.tempMap f) = some s') :
    ∃ w', Behind s' w' ∧ (s.cpu.Fresh → s'.cpu.Fresh) := by
  rw [coreStep] at h
  split at h
  · cases h
  · rename_i htemp
    cases hb with
    | mapped temp holds last empty entry => exact absurd temp htemp
    | plain temp holds =>
      obtain ⟨c', hc, rfl⟩ := Option.map_eq_some_iff.mp h
      obtain ⟨t, e, ht, h0, hm, hf'⟩ := tempMap_spec (c := s.cpu.fill) holds.inv holds.m.symm hc
      refine ⟨w, .mapped rfl ⟨rfl, holds.ctxs, holds.inv, holds.full, holds.owned⟩ ht h0 hm,
        fun hf => hf' hf.fill⟩

theorem Behind.tempReset (hb : Behind s w) (h : coreStep s .tempReset = some s') :
    ∃ w', Behind s' w' ∧ (s.cpu.Fresh → s'.cpu.Fresh) := by
  obtain ⟨c', hc, rfl⟩ := Option.map_eq_some_iff.mp h
  cases hb with
  | mapped temp holds last empty entry =>
    obtain ⟨hm, hf'⟩ := tempReset_spec (c := s.cpu.fill) holds.inv last entry hc
    rw [write_eq_self empty] at hm
    exact ⟨w, .plain rfl ⟨hm.symm, holds.ctxs, holds.inv, holds.full, holds.owned⟩,
      fun hf => hf' hf.fill⟩
  | plain temp holds =>
    have hi := holds.inv
    have hx := hc
    obtain ⟨c₁, hs, -⟩ := Option.map_eq_some_iff.mp hx
    obtain ⟨m₁, hs, -⟩ := Option.map_eq_some_iff.mp hs
    obtain ⟨a, ha, -⟩ := Option.map_eq_some_iff.mp hs
    change walk s.k.m.mem s.k.m.cr3 (pml1Entry s.k.m.tempPage) = some a at ha
    rw [← holds.m] at ha
    obtain ⟨t, ht, rfl⟩ := find_last (hi.linked.self _ hi.loaded) ha
    have hl := hi.last hi.upper.2 ht
    obtain ⟨hm, hf'⟩ := tempReset_spec (c := s.cpu.fill) hi ht
      (holds.m.symm.trans (write_eq_self rfl).symm) hc
    exact ⟨w.setEntry t (pml1Index w.m.tempPage) 0,
      .plain rfl ⟨hm.symm, holds.ctxs, hi.eraseEntry hl (fun hx => hx.1 rfl),
        (setEntry_oneSlot hi hl 0).full hi holds.full, holds.owned⟩, fun hf => hf' hf.fill⟩

/-- A step keeps the TLB right exactly when it is harmless. -/
theorem Behind.step (hb : Behind s w) {a : Act} (h : coreStep s a = some s') :
    ∃ w', Behind s' w' ∧ (s.cpu.Fresh → Harmless s a → s'.cpu.Fresh) ∧
      (¬ Harmless s a → ¬ s'.cpu.Fresh) := by
  cases a with
  | op o =>
    obtain ⟨w', hb', hf⟩ := hb.op h
    exact ⟨w', hb', fun hx _ => hf hx, fun hn => absurd trivial hn⟩
  | modify virt flags => exact hb.modify h
  | tempMap f =>
    obtain ⟨w', hb', hf⟩ := hb.tempMap h
    exact ⟨w', hb', fun hx _ => hf hx, fun hn => absurd trivial hn⟩
  | tempReset =>
    obtain ⟨w', hb', hf⟩ := hb.tempReset h
    exact ⟨w', hb', fun hx _ => hf hx, fun hn => absurd trivial hn⟩

theorem behind_start {w₀ : World} {m : Machine} {frames : List Nat} {tlb : Cache} (hi : Inv w₀)
    (hctxs : w₀.ctxs = []) (hframes : frames.Subperm w₀.s.live)
    (hinit : initKernelPml4Entries w₀.m = some m) : ∃ w, Behind ⟨⟨m, [], frames⟩, tlb, false⟩ w := by
  have hone : OneRoot w₀ := by
    intro r hr
    have h := hi.root r hr
    rw [hctxs] at h
    exact List.mem_singleton.mp h
  obtain ⟨w₁, rfl, hi₁, he₁, hfull⟩ := initKernelPml4Entries_spec hi hone hinit
  refine ⟨w₁, .plain rfl ⟨rfl, he₁.ctxs.trans hctxs, hi₁, hfull, ?_⟩⟩
  rw [List.nil_append, he₁.live]
  exact hframes

/-- In a run of the operations, every cached translation agrees with the tables
after each operation if and only if every `modify` finds its page absent or
sets the flags that it has. -/
theorem fresh_iff_harmless {w₀ : World} {m : Machine} {frames : List Nat} {tlb : Cache}
    {acts : List Act} {s : Core} (hi : Inv w₀) (hctxs : w₀.ctxs = [])
    (hframes : frames.Subperm w₀.s.live) (hinit : initKernelPml4Entries w₀.m = some m)
    (htlb : ∀ virt es, tlb virt es → m.path virt = some es)
    (hrun : run coreStep ⟨⟨m, [], frames⟩, tlb, false⟩ acts = some s) :
    (∀ as bs t, acts = as ++ bs → run coreStep ⟨⟨m, [], frames⟩, tlb, false⟩ as = some t →
        ∀ virt es, t.tlb virt es → t.k.m.path virt = some es) ↔
      Along coreStep Harmless ⟨⟨m, [], frames⟩, tlb, false⟩ acts :=
  always_iff_along (I := fun s => ∃ w, Behind s w) (P := fun s => s.cpu.Fresh)
    (fun s a t hb hf hs => by
      obtain ⟨w, hb⟩ := hb
      obtain ⟨w', hb', hfresh, hstale⟩ := hb.step hs
      exact ⟨⟨w', hb'⟩, not_imp_not.mp hstale, hfresh hf⟩)
    (behind_start hi hctxs hframes hinit) htlb hrun

instance (m : Machine) (virt flags : Nat) : Decidable (KeepsFlags m virt flags) :=
  decidable_of_iff ((pageWord m.mem m.cr3 virt).all fun e => decide (e % 2 = 1 → setFlags e flags = e)) (by
    rw [KeepsFlags]
    cases pageWord m.mem m.cr3 virt with
    | none => simp
    | some e => simp only [Option.all_some, decide_eq_true_eq, Option.some.injEq, forall_eq'])

instance (s : Core) : (a : Act) → Decidable (Harmless s a)
  | .op _ => inferInstanceAs (Decidable True)
  | .modify virt flags => inferInstanceAs (Decidable (KeepsFlags s.k.m virt flags))
  | .tempMap _ => inferInstanceAs (Decidable True)
  | .tempReset => inferInstanceAs (Decidable True)

/-- The kernel after boot, with an empty TLB. -/
def bootCore : Core := ⟨⟨bootWorld.m, [], [0x1000000]⟩, fun _ _ => False, false⟩

/-- A user page is mapped and keeps its flags, and the temporary page is used. -/
def bootActs : List Act :=
  [.op (.map 0x1000000 0x10000000 7), .modify 0x10000000 7, .tempMap 0x1000000, .tempReset,
    .op (.unmap 0x10000000)]

theorem fresh_iff_harmless_boot :
    ∃ s, run coreStep bootCore bootActs = some s ∧
      ∀ as bs t, bootActs = as ++ bs → run coreStep bootCore as = some t →
        ∀ virt es, t.tlb virt es → t.k.m.path virt = some es := by
  have hrun : (run coreStep bootCore bootActs).any (fun _ => true) = true := by decide +kernel
  have halong : Along coreStep Harmless bootCore bootActs := by decide +kernel
  obtain ⟨s, hs, -⟩ := exists_of_any hrun
  exact ⟨s, hs, (fresh_iff_harmless bootInv rfl (List.Subperm.refl _)
    (initKernelPml4Entries_full bootInv bootFull) (fun _ _ hx => hx.elim) hs).mpr halong⟩

/-- A page loses the right to be written, and the TLB does not. -/
theorem modify_leaves_stale_translation :
    ∃ s virt es, run coreStep bootCore [.op (.map 0x1000000 0x10000000 7), .modify 0x10000000 5] =
      some s ∧ s.tlb virt es ∧ s.k.m.path virt ≠ some es := by
  have hmap : (run coreStep bootCore [.op (.map 0x1000000 0x10000000 7)]).any (fun s =>
      decide (¬ Harmless s (.modify 0x10000000 5)) &&
        (coreStep s (.modify 0x10000000 5)).any fun _ => true) = true := by decide +kernel
  obtain ⟨s₁, hs₁, hx⟩ := exists_of_any hmap
  obtain ⟨hharm, hx⟩ := Bool.and_eq_true_iff.mp hx
  obtain ⟨s, hs, -⟩ := (Option.any_eq_true _ _).mp hx
  have hstart : ∃ w, Behind bootCore w := behind_start bootInv rfl (List.Subperm.refl _)
    (initKernelPml4Entries_full bootInv bootFull)
  obtain ⟨w₁, hb₁⟩ := invariant (I := fun s => ∃ w, Behind s w)
    (fun _ _ _ hb hs => by
      obtain ⟨w, hb⟩ := hb
      obtain ⟨w', hb', -⟩ := hb.step hs
      exact ⟨w', hb'⟩) hstart hs₁
  obtain ⟨-, -, -, hstale⟩ := hb₁.step hs
  have hnot := hstale (of_decide_eq_true hharm)
  rw [Cpu.Fresh] at hnot
  push Not at hnot
  obtain ⟨virt, es, htlb, hne⟩ := hnot
  refine ⟨s, virt, es, ?_, htlb, hne⟩
  rw [show ([.op (.map 0x1000000 0x10000000 7), .modify 0x10000000 5] : List Act) =
    [.op (.map 0x1000000 0x10000000 7)] ++ [.modify 0x10000000 5] from rfl, run_append, hs₁,
    Option.bind_some, run_cons, hs]
  rfl

end Crabos.Page
