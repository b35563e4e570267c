import Crabos.Task.Frames

/-!
# Wakers left in a mutex

The list of an `AsyncMutex` holds wakers of tasks that wait for the lock or
hold it. A task leaves the call that locks only when the guard is dropped,
which empties the list, or when there was no memory for one more waker. In
the second case the wakers it had pushed before stay behind, and invoking one
overwrites the frame of a task that is back in user mode.
-/
namespace Crabos.Task

open Crabos.Run Crabos.Syscall Crabos.Interface

/-- The frame of a task that is out of the kernel, or whose call has not been
taken up by its future, is still in its state. -/
def Held (w : Watched Env Susp) : Prop :=
  ∀ t g st, w.s.futures t = some (.resume g) → w.s.states t = some st →
    ∃ f, w.expected t = some f ∧ (st = .user f ∨ st = .syscallEntry f)

/-- If the next call polls the lock again and finds no memory for its waker,
it has no waker in the list of the mutex. -/
def LeavesNone (env : Env) (i : Input) : Option (TaskId × Ctx × TrapFrame × Call Susp) → Prop
  | some (id, _, _, .resumed (.waiting m _)) => i.push = false → id ∉ (env.files m).wakers
  | _ => True

instance (env : Env) (i : Input) : (o : Option (TaskId × Ctx × TrapFrame × Call Susp)) →
    Decidable (LeavesNone env i o)
  | some (id, _, _, .resumed (.waiting m _)) =>
    inferInstanceAs (Decidable (i.push = false → id ∉ (env.files m).wakers))
  | some (_, _, _, .resumed (.console _)) => inferInstanceAs (Decidable True)
  | some (_, _, _, .resumed (.holding _ _ _)) => inferInstanceAs (Decidable True)
  | some (_, _, _, .resumed (.opening _)) => inferInstanceAs (Decidable True)
  | some (_, _, _, .entry) => inferInstanceAs (Decidable True)
  | none => inferInstanceAs (Decidable True)

/-- The condition on a step. -/
def NoneStale (w : Watched Env Susp) : Event Input → Prop
  | .turn i => LeavesNone w.s.env i (nextCall w.s)
  | _ => True

instance (w : Watched Env Susp) : (e : Event Input) → Decidable (NoneStale w e)
  | .turn i => inferInstanceAs (Decidable (LeavesNone w.s.env i (nextCall w.s)))
  | .timer _ => inferInstanceAs (Decidable True)
  | .syscall _ => inferInstanceAs (Decidable True)
  | .keyboard _ => inferInstanceAs (Decidable True)

section calls

variable {v : View Env} {i : Input} {e : Effect Env Susp}

/-- A poll that has nothing to do with mutexes. -/
structure Calm (v : View Env) (e : Effect Env Susp) : Prop where
  wakes : e.wakes = []
  files : e.env.files = v.env.files
  outcome : ∀ susp, e.outcome = .pending susp → susp.mutex = none

/-- A poll of a call that uses the mutex `m`, and is left waiting or holding
or has dropped the guard. -/
inductive Uses (v : View Env) (m : Nat) (e : Effect Env Susp) : Prop where
  | parked (mu : AsyncMutex TaskId) (hm : ∀ x ∈ mu.wakers, x = v.task ∨ x ∈ (v.env.files m).wakers)
      (hw : e.wakes = []) (hf : e.env.files = Function.update v.env.files m mu) (susp : Susp)
      (hs : susp.mutex = some m) (ho : e.outcome = .pending susp)
  | dropped (hw : ∀ x ∈ e.wakes, x = v.task ∨ x ∈ (v.env.files m).wakers)
      (mu : AsyncMutex TaskId) (hm : mu.wakers = [])
      (hf : e.env.files = Function.update v.env.files m mu) (u : UInt64)
      (ho : e.outcome = .ready u)

theorem calm_finish {env : Env} {r : SysResult Nat} (h : env.files = v.env.files) :
    Calm v (finish env r) where
  wakes := rfl
  files := h
  outcome _ hp := by cases hp

theorem calm_readScancode {sl : Slice} : Calm v (readScancode v sl) := by
  rw [readScancode]
  split
  · exact calm_finish rfl
  split
  · exact ⟨rfl, rfl, fun susp hp => by cases hp; rfl⟩
  · exact calm_finish rfl

theorem calm_openPath {sl : Slice} : Ensures (openPath v sl i) (Calm v) := by
  have hput : ∀ env o, env.files = v.env.files → Ensures (putFile v env o i) (Calm v) := by
    intro env o hf
    rw [putFile]
    split
    · exact ensures_putting fun _ _ => calm_finish hf
    · exact ensures_some (calm_finish hf)
  rw [openPath]
  split
  · exact ensures_some ⟨rfl, rfl, fun susp hp => by cases hp; rfl⟩
  · exact ensures_some (calm_finish rfl)
  · exact ensures_some (calm_finish rfl)
  · exact ensures_some (calm_finish rfl)
  · exact ensures_none
  · exact hput _ _ rfl
  · exact hput _ _ rfl

/-- The guard is dropped, or it stays in the future. -/
theorem uses_readSectors {w : View Env} {m : Nat} {sl : Slice} {total : Nat}
    (hw : ∀ x ∈ (w.env.files m).wakers, x = v.task ∨ x ∈ (v.env.files m).wakers)
    (hf : ∀ mu, Function.update w.env.files m mu = Function.update v.env.files m mu) :
    Uses v m (readSectors w m sl total i) := by
  have hdrop : ∀ env r, env.files = w.env.files → Uses v m (dropSeek env m r) := by
    intro env r he
    refine .dropped ?_ ⟨false, []⟩ rfl ?_ _ rfl
    · show ∀ x ∈ (env.files m).wakers, _
      rw [he]
      exact hw
    · show Function.update env.files m _ = _
      rw [he]
      exact hf _
  have htouch : (if min i.copied (sl.len - total) = 0 then w.env else touch w sl).files =
      w.env.files := by
    split <;> rfl
  rw [readSectors]
  split
  · exact hdrop _ _ htouch
  split
  · exact hdrop _ _ htouch
  · exact hdrop _ _ htouch
  · refine .parked (w.env.files m) hw rfl ?_ _ rfl rfl
    rw [← hf, Function.update_eq_self]
    exact htouch

theorem uses_lockSeek (m : Nat) (sl : Slice) :
    i.push = false ∧ Calm v (lockSeek v m sl i) ∨ Uses v m (lockSeek v m sl i) := by
  rw [lockSeek, AsyncMutex.lock]
  cases hp : i.push with
  | false => exact .inl ⟨rfl, calm_finish rfl⟩
  | true =>
    right
    have hmem : ∀ x ∈ v.task :: (v.env.files m).wakers, x = v.task ∨ x ∈ (v.env.files m).wakers :=
      fun x hx => List.mem_cons.mp hx
    cases (v.env.files m).locked with
    | true => exact .parked ⟨true, _⟩ hmem rfl rfl _ rfl rfl
    | false =>
      refine uses_readSectors ?_ ?_
      · simp only [Function.update_self]
        exact hmem
      · intro mu
        simp only [Function.update_idem]

/-- What the poll of a call does with mutexes, by where the call stands. -/
theorem serve_mutex {f : TrapFrame} {call : Call Susp} (h : serve v f call i = some e) :
    (Calm v e ∧ ∀ susp, call = .resumed susp →
        susp.mutex = none ∨ i.push = false ∧ ∃ m sl, susp = .waiting m sl) ∨
      ∃ m, Uses v m e ∧ (call = .entry ∨ ∃ susp, call = .resumed susp ∧ susp.mutex = some m) := by
  cases call with
  | entry =>
    have hcalm : Calm v e → (Calm v e ∧ ∀ susp, (.entry : Call Susp) = .resumed susp →
        susp.mutex = none ∨ i.push = false ∧ ∃ m sl, susp = .waiting m sl) ∨
        ∃ m, Uses v m e ∧ ((.entry : Call Susp) = .entry ∨
          ∃ susp, (.entry : Call Susp) = .resumed susp ∧ susp.mutex = some m) :=
      fun hc => .inl ⟨hc, fun susp hs => by cases hs⟩
    have hent := serve_entered h
    generalize Interface.Syscall.tryFrom f.regs.rax.toNat = c at hent
    cases hent with
    | grown env r hg => exact hcalm (calm_finish hg.files)
    | released range s hn hv hr => exact hcalm (calm_finish (releasePages_keeps hr).1)
    | modified range fl s hn hv hf hm => exact hcalm (calm_finish (modifyPages_keeps hm).1)
    | setCtx c hreg ho => exact hcalm ⟨rfl, rfl, fun _ hp => by cases hp⟩
    | spawned r x => exact hcalm ⟨rfl, rfl, fun _ hp => by cases hp⟩
    | console sl hm => exact hcalm calm_readScancode
    | file m sl hm =>
      rcases uses_lockSeek (v := v) (i := i) m sl with ⟨-, hc⟩ | hu
      · exact hcalm hc
      · exact .inr ⟨m, hu, .inl rfl⟩
    | written sl r hm => exact hcalm (calm_finish rfl)
    | opened sl e hm he => exact hcalm (calm_openPath e he)
  | resumed susp =>
    rw [serve] at h
    cases susp with
    | console sl =>
      cases h
      exact .inl ⟨calm_readScancode, fun susp hs => by cases hs; exact .inl rfl⟩
    | waiting m sl =>
      cases h
      rcases uses_lockSeek (v := v) (i := i) m sl with ⟨hp, hc⟩ | hu
      · exact .inl ⟨hc, fun susp hs => by cases hs; exact .inr ⟨hp, m, sl, rfl⟩⟩
      · exact .inr ⟨m, hu, .inr ⟨_, rfl, rfl⟩⟩
    | holding m sl total =>
      cases h
      exact .inr ⟨m, uses_readSectors (fun x hx => .inr hx) (fun _ => rfl), .inr ⟨_, rfl, rfl⟩⟩
    | opening sl => exact .inl ⟨calm_openPath e h, fun susp hs => by cases hs; exact .inl rfl⟩

end calls

/-- The task is inside a call that waits for the mutex or holds it. A task
that has lost its future never gets out of its call again. -/
def Parked (s : Sched Env Susp) (t : TaskId) (m : Nat) : Prop :=
  (∃ f susp, s.futures t = some (.dispatch f susp) ∧ susp.mutex = some m) ∨
    (s.futures t = none ∧ (∀ f, s.states t ≠ some (.user f)) ∧ t < s.nextId)

theorem Parked.congr {s s' : Sched Env Susp} {t : TaskId} {m : Nat} (h : Parked s t m)
    (hf : s'.futures t = s.futures t) (hs : s'.states t = s.states t)
    (hn : s'.nextId = s.nextId) : Parked s' t m := by
  rw [Parked, hf, hs, hn]
  exact h

structure WakeInv (w : Watched Env Susp) : Prop where
  inv : Inv w
  parked : ∀ m, ∀ t ∈ (w.s.env.files m).wakers, Parked w.s t m

section step

variable {w w' : Watched Env Susp}

theorem WakeInv.not_user (h : WakeInv w) {m : Nat} {t : TaskId}
    (ht : t ∈ (w.s.env.files m).wakers) (f : TrapFrame) : w.s.states t ≠ some (.user f) := by
  intro hu
  rcases h.parked m t ht with ⟨g, susp, hf, -⟩ | ⟨-, hnu, -⟩
  · have hok := h.inv.frame t
    rw [hf, hu] at hok
    generalize w.expected t = x at hok
    cases hok with
    | user f fut h =>
      rcases h with h | ⟨_, h⟩
      · cases h
      · cases h
    | serving st f susp h =>
      rcases h with h | ⟨_, h⟩
      · cases h
      · cases h
  · exact hnu f hu

theorem WakeInv.lt_nextId (h : WakeInv w) {m : Nat} {t : TaskId}
    (ht : t ∈ (w.s.env.files m).wakers) : t < w.s.nextId := by
  rcases h.parked m t ht with ⟨g, susp, hf, -⟩ | ⟨-, -, hlt⟩
  · exact h.inv.lt_nextId (by rw [hf]; exact Option.some_ne_none _)
  · exact hlt

/-- The wakers in a list can be invoked. -/
theorem WakeInv.holdsFrame (h : WakeInv w) {m : Nat} {t : TaskId}
    (ht : t ∈ (w.s.env.files m).wakers) : holdsFrame w.s t = false := by
  have hnu := h.not_user ht
  rw [Task.holdsFrame]
  rcases h.parked m t ht with ⟨g, susp, hf, -⟩ | ⟨hf, -⟩
  · rw [hf]
    cases hs : w.s.states t with
    | none => rfl
    | some st =>
      cases st with
      | user f => exact absurd hs (hnu f)
      | _ => rfl
  · rw [hf]
    cases hs : w.s.states t with
    | none => rfl
    | some st =>
      cases st with
      | user f => exact absurd hs (hnu f)
      | _ => rfl

/-- A task whose call is served has a waker only in the mutex of that call. -/
theorem WakeInv.serving (h : WakeInv w) {id : TaskId} {f : TrapFrame} {call : Call Susp} {m : Nat}
    (hf : Serving w.s id f call) (ht : id ∈ (w.s.env.files m).wakers) :
    ∃ susp, call = .resumed susp ∧ susp.mutex = some m := by
  rcases h.parked m id ht with ⟨g, susp, hd, hm⟩ | ⟨hn, -⟩
  · cases hf with
    | entry g hf hs =>
      rw [hf] at hd
      cases hd
    | resumed susp hf =>
      rw [hf] at hd
      cases hd
      exact ⟨_, rfl, hm⟩
  · cases hf with
    | entry g hf hs =>
      rw [hf] at hn
      cases hn
    | resumed susp hf =>
      rw [hf] at hn
      cases hn

/-- What a served call leaves in the lists: wakers that were there, and those
of its own task only if it is left waiting or holding. -/
structure Leaves (w : Watched Env Susp) (id : TaskId) (e : Effect Env Susp) : Prop where
  wakes : ∀ x ∈ e.wakes, x ≠ id → ∃ m, x ∈ (w.s.env.files m).wakers
  others : ∀ m, ∀ x ∈ (e.env.files m).wakers, x ≠ id → x ∈ (w.s.env.files m).wakers
  own : ∀ m, id ∈ (e.env.files m).wakers →
    ∃ susp, e.outcome = .pending susp ∧ susp.mutex = some m

theorem leaves_served (h : WakeInv w) {id : TaskId} {ctx : Ctx} {f : TrapFrame}
    {call : Call Susp} {i : Input} {e : Effect Env Susp} (hf : Serving w.s id f call)
    (hc : LeavesNone w.s.env i (some (id, ctx, f, call)))
    (he : serve ⟨id, ctx, ctx, w.s.env⟩ f call i = some e) : Leaves w id e := by
  rcases serve_mutex he with ⟨hcalm, hcall⟩ | ⟨m, huses, hcall⟩
  · refine ⟨?_, ?_, ?_⟩
    · rw [hcalm.wakes]
      intro x hx
      cases hx
    · rw [hcalm.files]
      exact fun m x hx _ => hx
    · intro m hm
      rw [hcalm.files] at hm
      obtain ⟨susp, rfl, hs⟩ := h.serving hf hm
      rcases hcall susp rfl with hnone | ⟨hp, m', sl, rfl⟩
      · rw [hs] at hnone
        cases hnone
      · cases hs
        exact absurd hm (hc hp)
  · -- a waker of the task elsewhere would belong to another call
    have hother : ∀ m', id ∈ (w.s.env.files m').wakers → m' = m := by
      intro m' hm'
      obtain ⟨susp, rfl, hs⟩ := h.serving hf hm'
      rcases hcall with hcall | ⟨susp', heq, hs'⟩
      · cases hcall
      · cases heq
        rw [hs] at hs'
        cases hs'
        rfl
    cases huses with
    | parked mu hm hw hfiles susp hs ho =>
      refine ⟨?_, ?_, ?_⟩
      · rw [hw]
        intro x hx
        cases hx
      · intro m' x hx hne
        rw [hfiles] at hx
        by_cases hm' : m' = m
        · subst hm'
          rw [Function.update_self] at hx
          exact (hm x hx).resolve_left hne
        · rw [Function.update_of_ne hm'] at hx
          exact hx
      · intro m' hx
        rw [hfiles] at hx
        by_cases hm' : m' = m
        · subst hm'
          exact ⟨susp, ho, hs⟩
        · rw [Function.update_of_ne hm'] at hx
          exact absurd (hother m' hx) hm'
    | dropped hw mu hm hfiles u ho =>
      refine ⟨fun x hx hne => ⟨m, (hw x hx).resolve_left hne⟩, ?_, ?_⟩
      · intro m' x hx hne
        rw [hfiles] at hx
        by_cases hm' : m' = m
        · subst hm'
          rw [Function.update_self, hm] at hx
          cases hx
        · rw [Function.update_of_ne hm'] at hx
          exact hx
      · intro m' hx
        rw [hfiles] at hx
        by_cases hm' : m' = m
        · subst hm'
          rw [Function.update_self, hm] at hx
          cases hx
        · rw [Function.update_of_ne hm'] at hx
          exact absurd (hother m' hx) hm'

/-- A task that another call leaves parked. -/
theorem parked_other (h : WakeInv w) {id t : TaskId} {f : TrapFrame} {e : Effect Env Susp}
    {s' : Sched Env Susp} {m : Nat} (ht : t ∈ (w.s.env.files m).wakers) (hne : t ≠ id)
    (hd : dispatch w.s id f e = some s') : Parked s' t m := by
  have hlt := h.lt_nextId ht
  have hle : w.s.nextId ≤ s'.nextId := by
    rw [(dispatch_fields hd).2.2.2.1]
    exact Nat.le_add_right _ _
  obtain ⟨hfut, hst⟩ := dispatch_other hd hne
  obtain ⟨hfut', hst'⟩ := applyEffect_task (e := e) (Nat.ne_of_lt hlt)
  have hnu : ∀ f, s'.states t ≠ some (.user f) := by
    intro f hu
    rw [hst] at hu
    rw [hu] at hst'
    rcases hst' with h₁ | h₁ | ⟨-, -, h₁⟩
    · cases h₁
    · exact h.not_user ht f h₁.symm
    · cases h₁
  rw [← hfut] at hfut'
  rcases hfut' with h₁ | h₁
  · exact .inr ⟨h₁, hnu, Nat.lt_of_lt_of_le hlt hle⟩
  · rcases h.parked m t ht with ⟨g, susp, hf, hm⟩ | ⟨hn, -, -⟩
    · exact .inl ⟨g, susp, h₁.trans hf, hm⟩
    · exact .inr ⟨h₁.trans hn, hnu, Nat.lt_of_lt_of_le hlt hle⟩

/-- The task whose call is left waiting or holding. -/
theorem parked_own (h : WakeInv w) {id : TaskId} {f : TrapFrame} {call : Call Susp}
    {e : Effect Env Susp} {s' : Sched Env Susp} {m : Nat} {susp : Susp}
    (hf : Serving w.s id f call) (hs : (w.s.states id).isSome)
    (ho : e.outcome = .pending susp) (hm : susp.mutex = some m)
    (hd : dispatch w.s id f e = some s') : Parked s' id m := by
  obtain ⟨hne, -, hst⟩ := h.inv.serving hf hs
  have hlt := h.inv.lt_nextId hne
  have hle : w.s.nextId ≤ s'.nextId := by
    rw [(dispatch_fields hd).2.2.2.1]
    exact Nat.le_add_right _ _
  obtain ⟨u, ho', rfl⟩ | ⟨susp', ho', rfl⟩ := dispatch_cases hd
  · rw [ho] at ho'
    cases ho'
  · rw [ho] at ho'
    cases ho'
    obtain ⟨-, hst'⟩ := applyEffect_task (e := e) (Nat.ne_of_lt hlt)
    cases hfut : (applyEffect w.s e).futures id with
    | none =>
      refine .inr ⟨?_, fun g hu => ?_, Nat.lt_of_lt_of_le hlt hle⟩
      · simp only [setFuture, Function.update_self, hfut, Option.map_none]
      · rw [show (setFuture _ id _).states id = (applyEffect w.s e).states id from rfl] at hu
        rw [hu] at hst'
        rcases hst' with h₁ | h₁ | ⟨-, -, h₁⟩
        · cases h₁
        · rw [← h₁] at hst
          rcases hst with h₂ | ⟨_, h₂⟩
          · cases h₂
          · cases h₂
        · cases h₁
    | some fut =>
      refine .inl ⟨f, susp, ?_, hm⟩
      simp only [setFuture, Function.update_self, hfut, Option.map_some]

theorem wakeInv_step (h : WakeInv w) {e : Event Input} (hc : NoneStale w e)
    (hs : step kernel w e = some w') : WakeInv w' := by
  obtain ⟨t, frame, st, -, -, hst, hor, rfl⟩ | ⟨code, rfl, rfl⟩ | ⟨input, s', obs, rfl, ht, rfl⟩ :=
    step_cases h.inv.running hs
  · refine ⟨inv_left h.inv hst hor, fun m x hx => ?_⟩
    have hne : x ≠ t := by
      rintro rfl
      exact h.not_user hx _ hst
    exact (h.parked m x hx).congr rfl (Function.update_of_ne hne _ _) rfl
  · refine ⟨⟨h.inv.frame, h.inv.young, h.inv.running⟩, fun m x hx => ?_⟩
    have hfiles : (keyboardInterrupt w.s.env code).files = w.s.env.files := by
      rw [keyboardInterrupt]
      split <;> rfl
    exact h.parked m x (by rw [← hfiles]; exact hx)
  · obtain ⟨id, ctx, -, ⟨f, hst, rfl, rfl⟩ | ⟨hsome, hp, hnext⟩⟩ := turn_cases ht
    · exact ⟨⟨h.inv.frame, h.inv.young, fun _ => ⟨id, rfl, hst⟩⟩, h.parked⟩
    · have hin : Inv { w with s := enter w.s id ctx } :=
        ⟨h.inv.frame, h.inv.young, fun hu => by cases hu⟩
      have hwake : WakeInv { w with s := enter w.s id ctx } := ⟨hin, h.parked⟩
      have hmode : (enter w.s id ctx).mode ≠ .user := by simp [enter]
      cases hp with
      | run f hf hr =>
        refine ⟨inv_run hin hmode hf hsome hr, fun m x hx => ?_⟩
        have heq := taskRun_run hr
        subst heq
        have hne : x ≠ id := by
          rintro rfl
          rcases h.parked m x hx with ⟨g, susp, hd, -⟩ | ⟨hn, -⟩
          · rw [show w.s.futures x = _ from hf] at hd
            cases hd
          · rw [show w.s.futures x = _ from hf] at hn
            cases hn
        exact (h.parked m x hx).congr (Function.update_of_ne hne _ _)
          (Function.update_of_ne hne _ _) rfl
      | idle heq =>
        subst heq
        exact hwake
      | serve f call e hf he hd =>
        rw [NoneStale, hnext f call hf.of_enter] at hc
        have hleaves : Leaves { w with s := enter w.s id ctx } id e :=
          leaves_served hwake hf hc he
        refine ⟨inv_dispatch hin hmode hf hsome (fun x hx hne => ?_) hd, fun m x hx => ?_⟩
        · obtain ⟨m, hm⟩ := hleaves.wakes x hx hne
          exact hwake.holdsFrame hm
        · rw [observe_s] at hx ⊢
          have henv : s'.env = e.env := (dispatch_fields hd).2.2.1
          simp only [henv] at hx
          by_cases hne : x = id
          · subst hne
            obtain ⟨susp, ho, hm⟩ := hleaves.own m hx
            exact parked_own hwake hf hsome ho hm hd
          · exact parked_other hwake (hleaves.others m x hx hne) hne hd

theorem Inv.held (h : Inv w) : Held w := by
  intro t g st hf hs
  have hok := h.frame t
  rw [hf, hs] at hok
  generalize w.expected t = x at hok
  cases hok with
  | user f fut h => exact ⟨f, rfl, .inl rfl⟩
  | entry f g => exact ⟨f, rfl, .inr rfl⟩

theorem wakeInv_initial (entries : Option Ctx × Nat → Nat) (handles : TaskId → List (Nat × Object))
    (nextCtx : Ctx) (nextFile : Nat) (ctx : Ctx) (f : TrapFrame) :
    WakeInv (initial (Env.start entries handles nextCtx nextFile) ctx f : Watched Env Susp) where
  inv := inv_initial _ ctx f
  parked _ _ ht := by cases ht

end step

/-- Tasks that share files in any way: in every run in which no poll of a lock
gives up for want of memory while an older waker of its task is in the list,
no waker discards a frame. -/
theorem wakers_spare_frames (entries : Option Ctx × Nat → Nat)
    (handles : TaskId → List (Nat × Object)) (nextCtx : Ctx) (nextFile : Nat) (ctx : Ctx)
    (f : TrapFrame) (events : List (Event Input)) (w : Watched Env Susp)
    (hc : Along (step kernel) NoneStale
      (initial (Env.start entries handles nextCtx nextFile) ctx f) events)
    (hr : run (step kernel) (initial (Env.start entries handles nextCtx nextFile) ctx f) events =
      some w) : Held w ∧ Returns w := by
  have hinv := invariant_along (fun _ _ _ h hc hs => wakeInv_step h hc hs)
    (wakeInv_initial entries handles nextCtx nextFile ctx f) hc hr
  exact ⟨hinv.inv.held, hinv.inv.returns⟩

/-- Two tasks with a handle to one file; the first also has its page context. -/
def sharedFile : Watched Env Susp :=
  initial
    (Env.start (fun key => if key = (some 0, 0x10000) then 0x200007 else 0)
      (fun t => if t = 1 then [(1, .file 0), (2, .pageCtx 0)] else [(1, .file 0)]) 1 1)
    0 (TrapFrame.new 0x10000000 0)

/-- The first task reads the file and holds its lock while the disk is busy,
the second one waits for the lock. -/
def contention : List (Event Input) :=
  [.turn {}, .turn {}, .syscall (callFrame 10 2 0 0), .turn {}, .turn {}, .turn {},
    .syscall (callFrame 13 1 0x10000000 1), .turn {}, .syscall (callFrame 13 1 0x10000000 1),
    .turn {}, .turn {}, .turn {}]

theorem wakers_spare_contention :
    ∃ w, run (step kernel) sharedFile (contention ++ [.turn {}, .turn { io := .eof }, .turn {}]) =
      some w ∧ (w.s.env.files 0).wakers = [2] ∧ Held w ∧ Returns w := by
  obtain ⟨w, hrun, hw⟩ := exists_of_any (p := fun w => (w.s.env.files 0).wakers = [2])
    (show (run (step kernel) sharedFile
      (contention ++ [.turn {}, .turn { io := .eof }, .turn {}])).any _ = true by decide)
  exact ⟨w, hrun, of_decide_eq_true hw,
    wakers_spare_frames _ _ _ _ _ _ _ w (by decide) hrun⟩

/-- The future is in `TaskResume`. -/
def resumes : Option (TaskFuture Susp) → Bool
  | some (.resume _) => true
  | _ => false

theorem exists_of_resumes {o : Option (TaskFuture Susp)} (h : resumes o = true) :
    ∃ g, o = some (.resume g) := by
  unfold resumes at h
  split at h
  · exact ⟨_, rfl⟩
  · cases h

/-- The second task polls the lock again, finds no memory for its waker and
returns to user state; then the guard is dropped. -/
theorem stale_waker_discards :
    ∃ w, run (step kernel) sharedFile
      (contention ++ [.turn { push := false }, .turn { io := .eof }]) = some w ∧ ¬ Held w := by
  obtain ⟨w, hrun, hw⟩ := exists_of_any
    (p := fun w => w.s.states 2 = some .wake ∧ resumes (w.s.futures 2) = true)
    (show (run (step kernel) sharedFile
      (contention ++ [.turn { push := false }, .turn { io := .eof }])).any _ = true by decide)
  obtain ⟨hs, hf⟩ := of_decide_eq_true hw
  refine ⟨w, hrun, fun hheld => ?_⟩
  obtain ⟨g, hg⟩ := exists_of_resumes hf
  obtain ⟨f, -, h | h⟩ := hheld 2 g _ hg hs
  · cases h
  · cases h

end Crabos.Task
