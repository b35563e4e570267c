import Crabos.Syscall
import Crabos.Task.Steps

/-!
# Borrowed slices

A stream call validates the pages of a user slice, keeps the slice across its
awaits and accesses it in a later poll. The critical section that it holds
does not keep the scheduler from running other tasks, and a task in the same
page context can release or protect the pages in between.
-/
namespace Crabos.Task

open Crabos.Run Crabos.Syscall Crabos.Interface Crabos.User

/-- The slices that suspended calls keep, with the page contexts of their tasks. -/
def borrowed (s : Sched Env Susp) : List (Ctx × Slice) :=
  s.tasks.filterMap fun x =>
    match s.futures x.1 with
    | some (.dispatch _ susp) => some (x.2, susp.slice)
    | _ => none

/-- The pages of a range that passes the validation of `release_page` and
`modify_page`. -/
def validPages (env : Env) (ctx : Ctx) (regs : Registers) : List Nat :=
  match PageRange.new regs.rdi.toNat regs.rsi.toNat with
  | .error _ => []
  | .ok range =>
    match validateMap (env.pageEntry ctx) 0 range.pages with
    | some (.ok _) => range.pages
    | _ => []

/-- The pages that the call releases. -/
def releasedPages (env : Env) (ctx : Ctx) (regs : Registers) : List Nat :=
  if Interface.Syscall.tryFrom regs.rax.toNat = some .releasePage then validPages env ctx regs
  else []

/-- The pages that the call leaves without `WRITE`. -/
def protectedPages (env : Env) (ctx : Ctx) (regs : Registers) : List Nat :=
  if Interface.Syscall.tryFrom regs.rax.toNat = some .modifyPage ∧ regs.rdx.toNat = 0 then
    validPages env ctx regs
  else []

/-- No page of the list has its entry in common with a page of the slice. -/
def Apart (ctx : Ctx) (pages : List Nat) (b : Ctx × Slice) : Prop :=
  ∀ p ∈ pages, ∀ q ∈ b.2.pages, pageKey ctx p ≠ pageKey b.1 q

instance (ctx : Ctx) (pages : List Nat) (b : Ctx × Slice) : Decidable (Apart ctx pages b) :=
  inferInstanceAs (Decidable (∀ p ∈ pages, ∀ q ∈ b.2.pages, pageKey ctx p ≠ pageKey b.1 q))

/-- The next call releases no page of a borrowed slice and protects none of a
mutable one. -/
def SparesBorrowed (s : Sched Env Susp) : Option (TaskId × Ctx × TrapFrame × Call Susp) → Prop
  | some (_, ctx, f, .entry) => ∀ b ∈ borrowed s, Apart ctx (releasedPages s.env ctx f.regs) b ∧
      (b.2.write = true → Apart ctx (protectedPages s.env ctx f.regs) b)
  | _ => True

instance (s : Sched Env Susp) : (o : Option (TaskId × Ctx × TrapFrame × Call Susp)) →
    Decidable (SparesBorrowed s o)
  | some (_, ctx, f, .entry) =>
    inferInstanceAs (Decidable (∀ b ∈ borrowed s, Apart ctx (releasedPages s.env ctx f.regs) b ∧
      (b.2.write = true → Apart ctx (protectedPages s.env ctx f.regs) b)))
  | some (_, _, _, .resumed _) => inferInstanceAs (Decidable True)
  | none => inferInstanceAs (Decidable True)

/-- The condition on a step. -/
def SparesSlices (w : Watched Env Susp) : Event Input → Prop
  | .turn _ => SparesBorrowed w.s (nextCall w.s)
  | _ => True

instance (w : Watched Env Susp) : (e : Event Input) → Decidable (SparesSlices w e)
  | .turn _ => inferInstanceAs (Decidable (SparesBorrowed w.s (nextCall w.s)))
  | .timer _ => inferInstanceAs (Decidable True)
  | .syscall _ => inferInstanceAs (Decidable True)
  | .keyboard _ => inferInstanceAs (Decidable True)

/-- Every access to a slice so far found all its pages mapped in the page
context that was loaded. -/
def AccessesMapped (w : Watched Env Susp) : Prop := ∀ a ∈ w.s.env.accesses, a.mapped = true

section calls

variable {v : View Env} {i : Input} {e : Effect Env Susp} {sl : Slice}

theorem mappedIn_congr {env env' : Env} {c : Ctx} (h : sl.MappedIn env c)
    (he : ∀ p ∈ sl.pages, env'.entry c p = env.entry c p) : sl.MappedIn env' c := by
  intro p hp
  rw [Mapped, he p hp]
  exact h p hp

/-- A poll that leaves the page tables alone, accesses only mapped slices and
keeps only mapped slices. -/
structure Tame (v : View Env) (e : Effect Env Susp) : Prop where
  entries : e.env.entries = v.env.entries
  accesses : ∀ a ∈ e.env.accesses, a ∈ v.env.accesses ∨ a.mapped = true
  own : ∀ susp, e.outcome = .pending susp → susp.slice.MappedIn v.env v.cr3

theorem tame_finish {env : Env} {r : SysResult Nat} (he : env.entries = v.env.entries)
    (ha : ∀ a ∈ env.accesses, a ∈ v.env.accesses ∨ a.mapped = true) : Tame v (finish env r) where
  entries := he
  accesses := ha
  own _ hp := by cases hp

theorem touch_accesses (hm : sl.MappedIn v.env v.cr3) :
    ∀ a ∈ (touch v sl).accesses, a ∈ v.env.accesses ∨ a.mapped = true := by
  intro a ha
  rcases List.mem_append.mp ha with ha | ha
  · exact .inl ha
  · rw [List.mem_singleton.mp ha]
    exact .inr (decide_eq_true hm)

theorem tame_readScancode (hm : sl.MappedIn v.env v.cr3) : Tame v (readScancode v sl) := by
  rw [readScancode]
  split
  · exact tame_finish rfl fun a ha => .inl ha
  split
  · exact ⟨rfl, fun a ha => .inl ha, fun susp hp => by cases hp; exact hm⟩
  · exact tame_finish rfl (touch_accesses hm)

theorem tame_openPath (hm : sl.MappedIn v.env v.cr3) : Ensures (openPath v sl i) (Tame v) := by
  have htouch := touch_accesses hm
  have hput : ∀ env o, env.entries = v.env.entries → env.accesses = (touch v sl).accesses →
      Ensures (putFile v env o i) (Tame v) := by
    intro env o he ha
    rw [putFile]
    split
    · exact ensures_putting fun _ _ => tame_finish he (by rw [ha]; exact htouch)
    · exact ensures_some (tame_finish he (by rw [ha]; exact htouch))
  rw [openPath]
  split
  · exact ensures_some ⟨rfl, htouch, fun susp hp => by cases hp; exact hm⟩
  · exact ensures_some (tame_finish rfl htouch)
  · exact ensures_some (tame_finish rfl htouch)
  · exact ensures_some (tame_finish rfl htouch)
  · exact ensures_none
  · exact hput _ _ rfl rfl
  · exact hput _ _ rfl rfl

theorem tame_readSectors (m total : Nat) (hm : sl.MappedIn v.env v.cr3) :
    Tame v (readSectors v m sl total i) := by
  have hfields : ∀ n : Nat, (if n = 0 then v.env else touch v sl).entries = v.env.entries ∧
      ∀ a ∈ (if n = 0 then v.env else touch v sl).accesses, a ∈ v.env.accesses ∨ a.mapped = true := by
    intro n
    split
    · exact ⟨rfl, fun a ha => .inl ha⟩
    · exact ⟨rfl, touch_accesses hm⟩
  obtain ⟨hent, hacc⟩ := hfields (min i.copied (sl.len - total))
  rw [readSectors]
  split
  · exact ⟨hent, hacc, fun _ hp => by cases hp⟩
  split
  · exact ⟨hent, hacc, fun _ hp => by cases hp⟩
  · exact ⟨hent, hacc, fun _ hp => by cases hp⟩
  · exact ⟨hent, hacc, fun susp hp => by cases hp; exact hm⟩

theorem tame_lockSeek {m : Nat} (hm : sl.MappedIn v.env v.cr3) : Tame v (lockSeek v m sl i) := by
  rw [lockSeek]
  split
  · exact tame_finish rfl fun a ha => .inl ha
  · exact ⟨rfl, fun a ha => .inl ha, fun susp hp => by cases hp; exact hm⟩
  · rename_i mu _
    have hm' : sl.MappedIn { v.env with files := Function.update v.env.files m mu } v.cr3 := hm
    have ht := tame_readSectors (v := { v with
      env := { v.env with files := Function.update v.env.files m mu } }) (i := i) m 0 hm'
    exact ⟨ht.entries, ht.accesses, ht.own⟩

theorem tame_resume {susp : Susp} (hm : susp.slice.MappedIn v.env v.cr3) :
    Ensures (resume v i susp) (Tame v) := by
  cases susp with
  | console sl => exact ensures_some (tame_readScancode hm)
  | waiting m sl => exact ensures_some (tame_lockSeek hm)
  | holding m sl total => exact ensures_some (tame_readSectors m total hm)
  | opening sl => exact tame_openPath hm

theorem or_flags_mod (frame : Nat) {fl : Nat} (h : fl < PAGE_SIZE) :
    (frame * PAGE_SIZE ||| fl) % PAGE_SIZE = fl := by
  have hp : PAGE_SIZE = 2 ^ 12 := rfl
  rw [hp] at h ⊢
  rw [Nat.or_mod_two_pow, Nat.mul_mod_left, Nat.zero_or, Nat.mod_eq_of_lt h]

theorem validPages_eq {env : Env} {ctx : Ctx} {regs : Registers} {range : PageRange}
    (hn : PageRange.new regs.rdi.toNat regs.rsi.toNat = .ok range)
    (hv : validateMap (env.pageEntry ctx) 0 range.pages = some (.ok ())) :
    validPages env ctx regs = range.pages := by
  rw [validPages, hn]
  simp only [hv]

/-- What the first poll of a call does to a slice that it has to spare. -/
theorem entry_keeps {f : TrapFrame} (h : serve v f .entry i = some e) {c : Ctx}
    (hrel : Apart v.cr3 (releasedPages v.env v.cr3 f.regs) (c, sl))
    (hpro : sl.write = true → Apart v.cr3 (protectedPages v.env v.cr3 f.regs) (c, sl))
    (hm : sl.MappedIn v.env c) : sl.MappedIn e.env c := by
  have hent := serve_entered h
  generalize hs : Interface.Syscall.tryFrom f.regs.rax.toNat = call at hent
  cases hent with
  | grown env r hg => exact mappedIn_congr hm fun p hp => hg.entries _ (hm p hp).1
  | released range s hn hv hr =>
    refine mappedIn_congr hm fun q hq => (releasePages_keeps hr).2.2 _ fun hmem => ?_
    obtain ⟨p, hp, hkey⟩ := List.mem_map.mp hmem
    rw [releasedPages, if_pos hs, validPages_eq hn hv] at hrel
    exact hrel p hp q hq hkey
  | modified range fl s hn hv hf hmod =>
    intro q hq
    rcases (modifyPages_keeps hmod).2.2 (pageKey c q) with hsame | ⟨hmem, frame, hnew⟩
    · have hsame' : s.env.entry c q = v.env.entry c q := hsame
      show Mapped (s.env.entry c q) sl.flags
      rw [hsame']
      exact hm q hq
    · obtain ⟨p, hp, hkey⟩ := List.mem_map.mp hmem
      have hflags : fl < PAGE_SIZE ∧ fl ≠ 0 ∧ contains fl sl.flags = true := by
        rcases PageCalls.userPageFlags_ok hf with ⟨hbits, rfl⟩ | ⟨hbits, rfl⟩
        · cases hw : sl.write with
          | false => exact ⟨by decide, by decide, by rw [Slice.flags, hw]; decide⟩
          | true =>
            have hap := hpro hw
            rw [protectedPages, if_pos ⟨hs, hbits⟩, validPages_eq hn hv] at hap
            exact absurd hkey (hap p hp q hq)
        · refine ⟨by decide, by decide, ?_⟩
          rw [Slice.flags]
          cases sl.write <;> decide
      have hmod' := or_flags_mod frame hflags.1
      have hentry : s.env.entry c q = frame * PAGE_SIZE ||| fl := hnew
      show Mapped (s.env.entry c q) sl.flags
      rw [Mapped, hentry, hmod']
      refine ⟨fun h0 => ?_, hflags.2.2⟩
      rw [h0] at hmod'
      exact hflags.2.1 hmod'.symm
  | setCtx => exact hm
  | spawned => exact hm
  | console sl' hm' => exact mappedIn_congr hm fun p _ => congrFun (tame_readScancode hm').entries _
  | file m sl' hm' => exact mappedIn_congr hm fun p _ => congrFun (tame_lockSeek hm').entries _
  | written sl' r hm' => exact hm
  | opened sl' e hm' he =>
    exact mappedIn_congr hm fun p _ => congrFun (tame_openPath hm' e he).entries _

/-- What the first poll of a call accesses and keeps. -/
theorem entry_own {f : TrapFrame} (h : serve v f .entry i = some e) :
    (∀ a ∈ e.env.accesses, a ∈ v.env.accesses ∨ a.mapped = true) ∧
      ∀ susp, e.outcome = .pending susp → susp.slice.MappedIn e.env v.cr3 := by
  have htame : Tame v e → (∀ a ∈ e.env.accesses, a ∈ v.env.accesses ∨ a.mapped = true) ∧
      ∀ susp, e.outcome = .pending susp → susp.slice.MappedIn e.env v.cr3 :=
    fun ht => ⟨ht.accesses, fun susp hp =>
      mappedIn_congr (ht.own susp hp) fun p _ => congrFun ht.entries _⟩
  have hent := serve_entered h
  generalize Interface.Syscall.tryFrom f.regs.rax.toNat = call at hent
  cases hent with
  | grown env r hg =>
    exact ⟨fun a ha => .inl (by rw [← hg.accesses]; exact ha), fun _ hp => by cases hp⟩
  | released range s hn hv hr =>
    exact ⟨fun a ha => .inl (by rw [← (releasePages_keeps hr).2.1]; exact ha),
      fun _ hp => by cases hp⟩
  | modified range fl s hn hv hf hm =>
    exact ⟨fun a ha => .inl (by rw [← (modifyPages_keeps hm).2.1]; exact ha),
      fun _ hp => by cases hp⟩
  | setCtx => exact ⟨fun a ha => .inl ha, fun _ hp => by cases hp⟩
  | spawned => exact ⟨fun a ha => .inl ha, fun _ hp => by cases hp⟩
  | console sl hm => exact htame (tame_readScancode hm)
  | file m sl hm => exact htame (tame_lockSeek hm)
  | written sl r hm => exact htame (tame_finish rfl (touch_accesses hm))
  | opened sl e hm he => exact htame (tame_openPath hm e he)

end calls

structure BorrowInv (w : Watched Env Susp) : Prop where
  running : Running w
  listed : Listed w.s
  borrowed : ∀ t c f susp, (t, c) ∈ w.s.tasks → w.s.futures t = some (.dispatch f susp) →
    susp.slice.MappedIn w.s.env c
  accesses : AccessesMapped w

section step

variable {w w' : Watched Env Susp}

theorem mem_borrowed {s : Sched Env Susp} {t : TaskId} {c : Ctx} {f : TrapFrame} {susp : Susp}
    (ht : (t, c) ∈ s.tasks) (hf : s.futures t = some (.dispatch f susp)) :
    (c, susp.slice) ∈ borrowed s := by
  refine List.mem_filterMap.mpr ⟨(t, c), ht, ?_⟩
  simp only [hf]

/-- What a served call does to borrowed slices, to its own and to the record. -/
structure Respects (w : Watched Env Susp) (ctx : Ctx) (e : Effect Env Susp) : Prop where
  keeps : ∀ t c f susp, (t, c) ∈ w.s.tasks → w.s.futures t = some (.dispatch f susp) →
    susp.slice.MappedIn e.env c
  own : ∀ susp, e.outcome = .pending susp → susp.slice.MappedIn e.env ctx
  accesses : ∀ a ∈ e.env.accesses, a.mapped = true

theorem respects_served (h : BorrowInv w) {id : TaskId} {ctx : Ctx} {f : TrapFrame}
    {call : Call Susp} {i : Input} {e : Effect Env Susp} (hid : (id, ctx) ∈ w.s.tasks)
    (hf : Serving w.s id f call) (hc : SparesBorrowed w.s (some (id, ctx, f, call)))
    (he : serve ⟨id, ctx, ctx, w.s.env⟩ f call i = some e) : Respects w ctx e := by
  have hrecord : (∀ a ∈ e.env.accesses, a ∈ w.s.env.accesses ∨ a.mapped = true) →
      ∀ a ∈ e.env.accesses, a.mapped = true := by
    intro hor a ha
    rcases hor a ha with ha | ha
    · exact h.accesses a ha
    · exact ha
  cases hf with
  | entry g hf hs =>
    obtain ⟨hacc, hown⟩ := entry_own he
    refine ⟨fun t c g susp ht hfut => ?_, hown, hrecord hacc⟩
    obtain ⟨hrel, hpro⟩ := hc _ (mem_borrowed ht hfut)
    exact entry_keeps he hrel hpro (h.borrowed t c g susp ht hfut)
  | resumed susp hf =>
    have htame : Tame ⟨id, ctx, ctx, w.s.env⟩ e := by
      refine tame_resume ?_ e he
      exact h.borrowed id ctx f susp hid hf
    refine ⟨fun t c g susp ht hfut => ?_, fun susp hp => ?_, hrecord htame.accesses⟩
    · exact mappedIn_congr (h.borrowed t c g susp ht hfut) fun p _ => congrFun htame.entries _
    · exact mappedIn_congr (htame.own susp hp) fun p _ => congrFun htame.entries _

theorem borrowed_dispatch (h : BorrowInv w) {id : TaskId} {ctx : Ctx} {f : TrapFrame}
    {e : Effect Env Susp} {s' : Sched Env Susp} (hid : (id, ctx) ∈ w.s.tasks)
    (hres : Respects w ctx e) (hd : dispatch w.s id f e = some s') (t : TaskId) (c : Ctx)
    (g : TrapFrame) (susp : Susp) (htc : (t, c) ∈ s'.tasks)
    (hfut : s'.futures t = some (.dispatch g susp)) : susp.slice.MappedIn e.env c := by
  by_cases hne : t = id
  · subst hne
    have hold : (t, c) ∈ w.s.tasks := by
      rcases mem_dispatch_tasks hd htc with hold | ⟨rfl, -⟩
      · exact hold
      · exact absurd (h.listed.young _ _ hid) (Nat.lt_irrefl _)
    rw [h.listed.unique t c ctx hold hid]
    obtain ⟨u, -, rfl⟩ | ⟨susp', ho, rfl⟩ := dispatch_cases hd
    · simp only [setFuture, Function.update_self, Option.map_eq_some_iff, reduceCtorEq, and_false,
        exists_false] at hfut
    · simp only [setFuture, Function.update_self, Option.map_eq_some_iff, TaskFuture.dispatch.injEq]
        at hfut
      obtain ⟨-, -, -, rfl⟩ := hfut
      exact hres.own _ ho
  · rw [(dispatch_other hd hne).1] at hfut
    rcases mem_dispatch_tasks hd htc with hold | ⟨rfl, -, g', hsp⟩
    · have hn : t ≠ w.s.nextId := Nat.ne_of_lt (h.listed.young t c hold)
      rcases (applyEffect_task (e := e) hn).1 with h₁ | h₁
      · rw [h₁] at hfut
        cases hfut
      · exact hres.keeps t c g susp hold (h₁.symm.trans hfut)
    · rw [applyEffect_spawned hsp] at hfut
      cases hfut

theorem borrowInv_step (h : BorrowInv w) {e : Event Input} (hc : SparesSlices w e)
    (hs : step kernel w e = some w') : BorrowInv w' := by
  have hr := running_step h.running hs
  have hl := listed_step h.running h.listed hs
  obtain ⟨t, frame, st, -, -, -, -, rfl⟩ | ⟨code, rfl, rfl⟩ | ⟨input, s', obs, rfl, ht, rfl⟩ :=
    step_cases h.running hs
  · exact ⟨hr, hl, h.borrowed, h.accesses⟩
  · have henv : (keyboardInterrupt w.s.env code).entries = w.s.env.entries ∧
        (keyboardInterrupt w.s.env code).accesses = w.s.env.accesses := by
      rw [keyboardInterrupt]
      split <;> exact ⟨rfl, rfl⟩
    refine ⟨hr, hl, fun t c f susp ht hf => ?_, fun a ha => h.accesses a (by rw [← henv.2]; exact ha)⟩
    exact mappedIn_congr (h.borrowed t c f susp ht hf) fun p _ => congrFun henv.1 _
  · obtain ⟨id, ctx, hid, ⟨f, -, rfl, rfl⟩ | ⟨-, hp, hnext⟩⟩ := turn_cases ht
    · exact ⟨hr, hl, h.borrowed, h.accesses⟩
    · have hin : BorrowInv { w with s := enter w.s id ctx } :=
        ⟨fun hu => (by cases hu), h.listed.congr rfl rfl, h.borrowed, h.accesses⟩
      cases hp with
      | run f hf hrun =>
        have heq := taskRun_run hrun
        subst heq
        refine ⟨hr, hl, fun t c g susp ht hfut => ?_, h.accesses⟩
        have hfut' : (setFuture _ id (.resume f)).futures t = some (.dispatch g susp) := hfut
        by_cases hne : t = id
        · subst hne
          simp only [setFuture, Function.update_self, Option.map_eq_some_iff, reduceCtorEq,
            and_false, exists_false] at hfut'
        · exact h.borrowed t c g susp ht ((setFuture_other hne _).symm.trans hfut')
      | idle heq =>
        subst heq
        exact hin
      | serve f call e hf he hd =>
        rw [SparesSlices, hnext f call hf.of_enter] at hc
        have hres : Respects { w with s := enter w.s id ctx } ctx e :=
          respects_served hin hid hf hc he
        have henv : s'.env = e.env := (dispatch_fields hd).2.2.1
        refine ⟨hr, hl, fun t c g susp ht hfut => ?_, fun a ha => ?_⟩
        · rw [observe_s] at ht hfut ⊢
          show susp.slice.MappedIn s'.env c
          rw [henv]
          exact borrowed_dispatch hin hid hres hd t c g susp ht hfut
        · rw [observe_s] at ha
          simp only [henv] at ha
          exact hres.accesses a ha

end step

theorem borrowInv_initial (entries : Option Ctx × Nat → Nat)
    (handles : TaskId → List (Nat × Object)) (nextCtx : Ctx) (nextFile : Nat) (ctx : Ctx)
    (f : TrapFrame) :
    BorrowInv (initial (Env.start entries handles nextCtx nextFile) ctx f : Watched Env Susp) where
  running := running_initial _ ctx f
  listed := listed_initial _ ctx f
  borrowed t c g susp ht hfut := by
    cases List.mem_singleton.mp ht
    simp [initial] at hfut
  accesses _ ha := by cases ha

/-- The first task spawns a second one in its own page context and waits for
a key with a slice on the page at `0x10000000`. The second task makes the call
`f`, then a key is pressed. -/
def keyPressed (f : TrapFrame) : List (Event Input) :=
  [.turn {}, .turn {}, .syscall (callFrame 9 0 0 0), .turn {}, .turn {},
    .syscall (callFrame 10 2 0 0), .turn {}, .turn {}, .turn {},
    .syscall (callFrame 13 1 0x10000000 1), .turn {}, .syscall f, .turn {}, .turn {}, .turn {},
    .turn {}, .keyboard 0x1e, .timer (callFrame 0 0 0 0), .turn {}]

end Crabos.Task
