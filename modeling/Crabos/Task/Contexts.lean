import Crabos.Syscall
import Crabos.Task.Steps

/-!
# Page contexts of tasks

`set_page_context` loads `CR3` and leaves the entry of the task in `TASKS` as
it is, while every turn of the scheduler reloads `CR3` from that entry. A task
therefore keeps the page context it asked for exactly as long as it asks for
the one that it was created with.
-/
namespace Crabos.Task

open Crabos.Run Crabos.Syscall Crabos.Interface

/-- The page context that a handle register names. -/
def namedCtx (env : Env) (id : TaskId) (reg : Nat) : Option Ctx :=
  if reg = 0 then none
  else
    match getObject env id reg with
    | some (.pageCtx c) => some c
    | _ => none

/-- If the call is a `set_page_context` that is going to succeed, it names the
page context `ctx` of the task. -/
def NamesOwn (env : Env) : Option (TaskId × Ctx × TrapFrame × Call Susp) → Prop
  | some (id, ctx, f, .entry) =>
    Interface.Syscall.tryFrom f.regs.rax.toNat = some .setPageContext →
      ∀ c ∈ namedCtx env id f.regs.rdi.toNat, c = ctx
  | _ => True

instance (env : Env) : (o : Option (TaskId × Ctx × TrapFrame × Call Susp)) →
    Decidable (NamesOwn env o)
  | some (id, ctx, f, .entry) =>
    inferInstanceAs (Decidable (Interface.Syscall.tryFrom f.regs.rax.toNat = some .setPageContext →
      ∀ c ∈ namedCtx env id f.regs.rdi.toNat, c = ctx))
  | some (_, _, _, .resumed _) => inferInstanceAs (Decidable True)
  | none => inferInstanceAs (Decidable True)

def OwnContext (w : Watched Env Susp) : Event Input → Prop
  | .turn _ => NamesOwn w.s.env (nextCall w.s)
  | _ => True

instance (w : Watched Env Susp) : (e : Event Input) → Decidable (OwnContext w e)
  | .turn _ => inferInstanceAs (Decidable (NamesOwn w.s.env (nextCall w.s)))
  | .timer _ => inferInstanceAs (Decidable True)
  | .syscall _ => inferInstanceAs (Decidable True)
  | .keyboard _ => inferInstanceAs (Decidable True)

/-- The page context that a task asked for last is loaded whenever its user
code runs, and it is the one that `get_page_context` gives a handle to. -/
def ContextKept (w : Watched Env Susp) : Prop :=
  (w.s.mode = .user → ∀ t c, w.s.current = some t → w.asked t = some c → w.s.cr3 = c) ∧
    ∀ t ctx c, (t, ctx) ∈ w.s.tasks → w.asked t = some c →
      ∀ i e u, getPageContext ⟨t, ctx, ctx, w.s.env⟩ i = some e → i.put = none →
        e.outcome = .ready u → getObject e.env t u.toNat = some (.pageCtx c)

section calls

variable {v : View Env} {i : Input} {e : Effect Env Susp}

theorem readSectors_setCtx {m : Nat} {sl : Slice} {total : Nat} :
    (readSectors v m sl total i).setCtx = none := by
  rw [readSectors]
  split
  · rfl
  · split <;> rfl

theorem lockSeek_setCtx {m : Nat} {sl : Slice} : (lockSeek v m sl i).setCtx = none := by
  rw [lockSeek]
  split
  · rfl
  · rfl
  · exact readSectors_setCtx

theorem readScancode_setCtx {sl : Slice} : (readScancode v sl).setCtx = none := by
  rw [readScancode]
  split
  · rfl
  · split <;> rfl

theorem openPath_setCtx {sl : Slice} :
    Ensures (openPath v sl i) fun e => e.setCtx = none := by
  have hput : ∀ env o, Ensures (putFile v env o i) fun e => e.setCtx = none := by
    intro env o
    rw [putFile]
    split
    · exact ensures_putting fun _ _ => rfl
    · exact ensures_some rfl
  rw [openPath]
  split
  · exact ensures_some rfl
  · exact ensures_some rfl
  · exact ensures_some rfl
  · exact ensures_some rfl
  · exact ensures_none
  · exact hput _ _
  · exact hput _ _

/-- Only a `set_page_context` with a handle to `c` loads `c`. -/
theorem serve_setCtx {f : TrapFrame} {call : Call Susp} {c : Ctx}
    (h : serve v f call i = some e) (hc : e.setCtx = some c) :
    call = .entry ∧ Interface.Syscall.tryFrom f.regs.rax.toNat = some .setPageContext ∧
      namedCtx v.env v.task f.regs.rdi.toNat = some c := by
  have hnone : e.setCtx ≠ none := by rw [hc]; exact Option.some_ne_none _
  cases call with
  | entry =>
    have hent := serve_entered h
    generalize hs : Interface.Syscall.tryFrom f.regs.rax.toNat = s at hent
    cases hent with
    | setCtx c' hreg ho =>
      cases hc
      refine ⟨rfl, rfl, ?_⟩
      rw [namedCtx, if_neg hreg, ho]
    | grown => cases hc
    | released => cases hc
    | modified => cases hc
    | spawned => cases hc
    | console sl hm => exact absurd readScancode_setCtx hnone
    | file m sl hm => exact absurd lockSeek_setCtx hnone
    | written => cases hc
    | opened sl e hm he => exact absurd (openPath_setCtx e he) hnone
  | resumed susp =>
    rw [serve] at h
    cases susp with
    | console sl =>
      cases h
      exact absurd readScancode_setCtx hnone
    | waiting m sl =>
      cases h
      exact absurd lockSeek_setCtx hnone
    | holding m sl total =>
      cases h
      exact absurd readSectors_setCtx hnone
    | opening sl => exact absurd (openPath_setCtx e h) hnone

end calls

structure CtxInv (w : Watched Env Susp) : Prop where
  running : Running w
  listed : Listed w.s
  fresh : ∀ t, w.s.nextId ≤ t → w.asked t = none
  asked : ∀ t a c, w.asked t = some a → (t, c) ∈ w.s.tasks → c = a
  loaded : w.s.mode = .user → ∀ t, w.s.current = some t → (t, w.s.cr3) ∈ w.s.tasks

section step

variable {w w' : Watched Env Susp}

theorem ctxInv_initial (env : Env) (ctx : Ctx) (f : TrapFrame) :
    CtxInv (initial env ctx f : Watched Env Susp) where
  running := running_initial env ctx f
  listed := listed_initial env ctx f
  fresh _ _ := rfl
  asked _ _ _ h := by cases h
  loaded hm := by cases hm

/-- The page contexts that tasks asked for, after a served call. -/
theorem asked_dispatch (h : CtxInv w) {id : TaskId} {ctx : Ctx} {f : TrapFrame}
    {e : Effect Env Susp} {s' : Sched Env Susp} (hid : (id, ctx) ∈ w.s.tasks)
    (hown : ∀ c, e.setCtx = some c → c = ctx)
    (hd : dispatch (enter w.s id ctx) id f e = some s') {t : TaskId} {a c : Ctx}
    (ha : ((e.obs (enter w.s id ctx) id).foldl observe { w with s := s' }).asked t = some a)
    (htc : (t, c) ∈ s'.tasks) : c = a := by
  rw [observe_obs_asked] at ha
  rcases mem_dispatch_tasks hd htc with htc | ⟨rfl, -⟩
  · split at ha
    · rename_i heq
      subst heq
      cases hset : e.setCtx with
      | none =>
        rw [hset, Option.none_or] at ha
        exact h.asked t a c ha htc
      | some c' =>
        rw [hset, Option.some_or] at ha
        cases ha
        rw [h.listed.unique t c ctx htc hid, hown _ hset]
    · exact h.asked t a c ha htc
  · have hne : (enter w.s id ctx).nextId ≠ id := Nat.ne_of_gt (h.listed.young id ctx hid)
    rw [if_neg hne] at ha
    have hnone := h.fresh _ (Nat.le_refl w.s.nextId)
    rw [show w.asked (enter w.s id ctx).nextId = _ from hnone] at ha
    cases ha

theorem ctxInv_dispatch (h : CtxInv w) {id : TaskId} {ctx : Ctx} {f : TrapFrame}
    {e : Effect Env Susp} {s' : Sched Env Susp} (hid : (id, ctx) ∈ w.s.tasks)
    (hown : ∀ c, e.setCtx = some c → c = ctx)
    (hd : dispatch (enter w.s id ctx) id f e = some s')
    (hr : Running ((e.obs (enter w.s id ctx) id).foldl observe { w with s := s' }))
    (hl : Listed ((e.obs (enter w.s id ctx) id).foldl observe { w with s := s' }).s) :
    CtxInv ((e.obs (enter w.s id ctx) id).foldl observe { w with s := s' }) where
  running := hr
  listed := hl
  fresh t ht := by
    rw [observe_s] at ht
    have hle : w.s.nextId ≤ t := by
      refine Nat.le_trans ?_ ht
      rw [(dispatch_fields hd).2.2.2.1]
      exact Nat.le_add_right _ _
    have hne : t ≠ id := Nat.ne_of_gt (Nat.lt_of_lt_of_le (h.listed.young id ctx hid) hle)
    rw [observe_obs_asked, if_neg hne]
    exact h.fresh t hle
  asked t a c ha htc := by
    rw [observe_s] at htc
    exact asked_dispatch h hid hown hd ha htc
  loaded hu := by
    rw [observe_s] at hu
    exact absurd ((dispatch_fields hd).1.symm.trans hu) (by simp [enter])

theorem ctxInv_step (h : CtxInv w) {e : Event Input} (hc : OwnContext w e)
    (hs : step kernel w e = some w') : CtxInv w' := by
  have hr := running_step h.running hs
  have hl := listed_step h.running h.listed hs
  obtain ⟨t, frame, st, -, -, -, -, rfl⟩ | ⟨code, rfl, rfl⟩ | ⟨input, s', obs, rfl, ht, rfl⟩ :=
    step_cases h.running hs
  · exact ⟨hr, hl, h.fresh, h.asked, fun hm => by cases hm⟩
  · exact ⟨hr, hl, h.fresh, h.asked, h.loaded⟩
  · obtain ⟨id, ctx, hid, ⟨f, -, rfl, rfl⟩ | ⟨-, hp, hnext⟩⟩ := turn_cases ht
    · refine ⟨hr, hl, h.fresh, h.asked, fun _ t ht => ?_⟩
      cases ht
      exact hid
    · cases hp with
      | run f hf hrun =>
        have heq := taskRun_run hrun
        subst heq
        exact ⟨hr, hl, h.fresh, h.asked, fun hm => by cases hm⟩
      | idle heq =>
        subst heq
        exact ⟨hr, hl, h.fresh, h.asked, fun hm => by cases hm⟩
      | serve f call e hf he hd =>
        refine ctxInv_dispatch h hid (fun c hset => ?_) hd hr hl
        obtain ⟨rfl, hsys, hnamed⟩ := serve_setCtx he hset
        rw [OwnContext, hnext f .entry hf.of_enter] at hc
        exact hc hsys c hnamed

theorem lookup_maxHandle {l : List (Nat × Object)} {n : Nat} (h : maxHandle l < n) :
    l.lookup n = none := by
  induction l with
  | nil => rfl
  | cons x l ih =>
    obtain ⟨a, o⟩ := x
    have hmax : max a (maxHandle l) < n := h
    have hne : n ≠ a := by omega
    rw [List.lookup_cons, beq_false_of_ne hne]
    exact ih (by omega)

/-- A handle that `put` gives out names what was put. -/
theorem put_getObject {env env' : Env} {t : TaskId} {o : Object} {i : Input} {r : SysResult Nat}
    (h : put env t o i = some (r, env')) (hp : i.put = none) :
    ∃ n, r = .ok n ∧ n < User.WORD ∧ getObject env' t n = some o := by
  rw [put] at h
  split at h
  · cases h
  rename_i hlt
  rw [hp] at h
  cases h
  refine ⟨_, rfl, Nat.lt_of_not_le hlt, ?_⟩
  rw [getObject]
  simp only [Function.update_self]
  rw [List.lookup_append, lookup_maxHandle (Nat.lt_succ_self _), Option.none_or, List.lookup_cons,
    beq_self_eq_true]

theorem CtxInv.contextKept (h : CtxInv w) : ContextKept w := by
  refine ⟨fun hm t c ht ha => h.asked t c _ ha (h.loaded hm t ht), ?_⟩
  intro t ctx c ht ha i e u he hp hu
  have hctx := h.asked t c ctx ha ht
  subst hctx
  obtain ⟨⟨r, env'⟩, hput, rfl⟩ := Option.map_eq_some_iff.mp he
  obtain ⟨n, rfl, hn, hget⟩ := put_getObject hput hp
  cases hu
  have hnat : (UInt64.ofNat n).toNat = n := by
    rw [UInt64.toNat_ofNat']
    exact Nat.mod_eq_of_lt hn
  show getObject env' t (UInt64.ofNat n).toNat = _
  rw [hnat]
  exact hget

end step

/-- In every run in which each successful `set_page_context` names the page
context that its task was created with, tasks keep what they asked for. -/
theorem context_kept (entries : Option Ctx × Nat → Nat) (handles : TaskId → List (Nat × Object))
    (nextCtx : Ctx) (nextFile : Nat) (ctx : Ctx) (f : TrapFrame) (events : List (Event Input))
    (w : Watched Env Susp)
    (hc : Along (step kernel) OwnContext
      (initial (Env.start entries handles nextCtx nextFile) ctx f) events)
    (hr : run (step kernel) (initial (Env.start entries handles nextCtx nextFile) ctx f) events =
      some w) : ContextKept w :=
  (invariant_along (fun _ _ _ h hc hs => ctxInv_step h hc hs) (ctxInv_initial _ ctx f) hc
    hr).contextKept

/-- The task gets a handle to its own page context and sets it. -/
def setsOwn : List (Event Input) :=
  [.turn {}, .turn {}, .syscall (callFrame 9 0 0 0), .turn {}, .turn {},
    .syscall (callFrame 8 2 0 0), .turn {}, .turn {}]

theorem context_kept_own :
    ∃ w, run (step kernel) oneTask setsOwn = some w ∧ w.asked 1 = some 0 ∧ w.s.mode = .user ∧
      ContextKept w := by
  obtain ⟨w, hrun, hw⟩ := exists_of_any (p := fun w => w.asked 1 = some 0 ∧ w.s.mode = .user)
    (show (run (step kernel) oneTask setsOwn).any _ = true by decide)
  obtain ⟨hasked, hmode⟩ := of_decide_eq_true hw
  exact ⟨w, hrun, hasked, hmode, context_kept _ _ _ _ _ _ setsOwn w (by decide) hrun⟩

/-- The task makes a new page context and sets it. -/
def setsOther : List (Event Input) :=
  [.turn {}, .turn {}, .syscall (callFrame 6 0 0 0), .turn {}, .turn {},
    .syscall (callFrame 8 2 0 0), .turn {}, .turn {}]

/-- It runs in its old page context from then on. -/
theorem context_lost :
    ∃ w, run (step kernel) oneTask setsOther = some w ∧ ¬ ContextKept w := by
  obtain ⟨w, hrun, hw⟩ := exists_of_any
    (p := fun w => w.s.mode = .user ∧ w.s.current = some 1 ∧ w.asked 1 = some 1 ∧ w.s.cr3 = 0)
    (show (run (step kernel) oneTask setsOther).any _ = true by decide)
  obtain ⟨hmode, hcur, hasked, hcr3⟩ := of_decide_eq_true hw
  refine ⟨w, hrun, fun hk => ?_⟩
  have hone := hk.1 hmode 1 1 hcur hasked
  rw [hcr3] at hone
  cases hone

end Crabos.Task
