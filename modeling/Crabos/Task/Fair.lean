import Crabos.Lib.Cyclic
import Crabos.Task.Steps

/-!
# The order in which tasks are picked

A turn of `switch` looks for work behind the previous task. Which task that is
comes from the turn before, or through `CURRENT_TASK` from before the interrupt;
in both cases it is the task that was picked last. So the picks of a run go
round in the cyclic order of the ids.
-/
namespace Crabos.Task

open Crabos.Run Crabos.Cyclic

variable {Env Susp Input : Type}

/-- `find_next_work_item` looks at the tasks in cyclic order. -/
theorem nextTasks_ids (tasks : List (TaskId × Ctx)) (prev : Option TaskId) :
    (nextTasks tasks prev).map Prod.fst = after (tasks.map Prod.fst) (prev.getD 0) := by
  rw [nextTasks, after, List.map_append, List.filter_map, List.filter_map]
  rfl

/-- It takes the first of them that does not sleep. -/
theorem findNextWorkItem_eq {states : TaskId → Option TaskState} {l : List (TaskId × Ctx)}
    (h : ∀ x ∈ l, states x.1 ≠ none) :
    findNextWorkItem states l = (l.find? fun x => states x.1 ≠ some .sleep).bind fun x =>
      (states x.1).map fun st => (x.1, x.2, st) := by
  induction l with
  | nil => rfl
  | cons x l ih =>
    have hx := h x List.mem_cons_self
    have hrest := ih fun y hy => h y (List.mem_cons_of_mem x hy)
    rw [findNextWorkItem]
    split
    · rename_i hnone
      exact absurd hnone hx
    · rename_i hsleep
      have hnot : decide (states x.1 ≠ some .sleep) = false := by simp [hsleep]
      rw [List.find?_cons, hnot, hrest]
    · rename_i st hne hst
      have hawake : decide (states x.1 ≠ some .sleep) = true := by
        rw [hst, decide_eq_true_iff]
        intro heq
        exact hne (Option.some.inj heq)
      rw [List.find?_cons, hawake]
      simp only [Option.bind_some, hst]
      rfl

/-- The task that a step has made the current one, if it is a turn of the loop. -/
def picked (s : Sched Env Susp) : Event Input → List TaskId
  | .turn _ => s.current.toList
  | _ => []

/-- The tasks that the turns of a run have picked. -/
def picks (k : Kernel Env Susp Input) : Watched Env Susp → List (Event Input) → List TaskId
  | _, [] => []
  | w, e :: events =>
    match step k w e with
    | none => []
    | some w' => picked w'.s e ++ picks k w' events

/-- The tasks are the given ones, and none of them sleeps. -/
structure Awake (ids : List TaskId) (s : Sched Env Susp) : Prop where
  tasks : s.tasks.map Prod.fst = ids
  awake : ∀ id ∈ ids, s.states id ≠ some .sleep

instance (ids : List TaskId) (s : Sched Env Susp) : Decidable (Awake ids s) :=
  decidable_of_iff (s.tasks.map Prod.fst = ids ∧ ∀ id ∈ ids, s.states id ≠ some .sleep)
    ⟨fun h => ⟨h.1, h.2⟩, fun h => ⟨h.tasks, h.awake⟩⟩

/-- The task that was picked last: the next search starts behind it. -/
structure Last (s : Sched Env Susp) (p : TaskId) : Prop where
  current : s.current = some p
  mode : s.mode = .user ∨ s.mode = .kernel (some p)

section step

variable {k : Kernel Env Susp Input} {w w' : Watched Env Susp} {ids : List TaskId} {p : TaskId}

/-- With all tasks awake, the search ends with the first task. -/
theorem findNextWorkItem_awake {s : Sched Env Susp} (h : Awake ids s) {prev : Option TaskId}
    {id : TaskId} {ctx : Ctx} {st : TaskState}
    (hf : findNextWorkItem s.states (nextTasks s.tasks prev) = some (id, ctx, st)) :
    (after ids (prev.getD 0)).head? = some id := by
  have hids := nextTasks_ids s.tasks prev
  rw [h.tasks] at hids
  rw [← hids]
  cases hl : nextTasks s.tasks prev with
  | nil =>
    rw [hl] at hf
    cases hf
  | cons x l =>
    have hmem : x ∈ nextTasks s.tasks prev := by
      rw [hl]
      exact List.mem_cons_self
    have hx : x.1 ∈ ids := by
      rw [← h.tasks]
      exact List.mem_map_of_mem (mem_nextTasks hmem)
    rw [hl, findNextWorkItem] at hf
    split at hf
    · cases hf
    · rename_i hsleep
      exact absurd hsleep (h.awake _ hx)
    · cases hf
      rfl

theorem polled_current {s s' : Sched Env Susp} {id : TaskId} {ctx : Ctx} {input : Input}
    {obs : List Obs} (hp : Polled k s id ctx input s' obs) : s'.current = s.current := by
  cases hp with
  | run f hf hr =>
    rw [taskRun_run hr]
    rfl
  | idle hs => rw [hs]
  | serve f call e hf he hd => exact (dispatch_fields hd).2.1

/-- A turn picks the first task behind the previous one. -/
theorem turn_picks {s s' : Sched Env Susp} {prev : Option TaskId} {input : Input} {obs : List Obs}
    (h : Awake ids s) (hm : s.mode = .kernel prev) (ht : turn k s input = some (s', obs)) :
    ∃ id, (after ids (prev.getD 0)).head? = some id ∧ Last s' id := by
  rw [turn, hm] at ht
  simp only at ht
  split at ht
  · cases ht
  · rename_i id ctx f hf
    cases ht
    exact ⟨id, findNextWorkItem_awake h hf, rfl, .inl rfl⟩
  · rename_i id ctx st hne hf
    have hp := polled_of_poll ht
    exact ⟨id, findNextWorkItem_awake h hf, polled_current hp, .inr (polled_mode hp)⟩

theorem turn_kernel {s s' : Sched Env Susp} {input : Input} {obs : List Obs}
    (ht : turn k s input = some (s', obs)) : ∃ prev, s.mode = .kernel prev := by
  cases hm : s.mode with
  | user =>
    rw [turn, hm] at ht
    cases ht
  | kernel prev => exact ⟨prev, rfl⟩

/-- The picks of one step: none and the last one stays, or one and it is the last one then. -/
theorem step_picks (hrun : Running w) (h : Awake ids w.s) {e : Event Input}
    (hs : step k w e = some w') (events : List (Event Input)) :
    (picks k w (e :: events) = picks k w' events ∧ ∀ p, Last w.s p → Last w'.s p) ∨
      ∃ id prev, w.s.mode = .kernel prev ∧ (after ids (prev.getD 0)).head? = some id ∧
        Last w'.s id ∧ picks k w (e :: events) = id :: picks k w' events := by
  have hpicks : picks k w (e :: events) = picked w'.s e ++ picks k w' events := by
    rw [picks, hs]
  rw [hpicks]
  obtain ⟨t, frame, st, hm, hcur, -, -, rfl⟩ | ⟨code, rfl, rfl⟩ | ⟨input, s', obs, rfl, ht, rfl⟩ :=
    step_cases hrun hs
  · left
    have hnoturn : ∀ input, e ≠ .turn input := by
      rintro input rfl
      obtain ⟨⟨s', obs⟩, he, -⟩ := Option.map_eq_some_iff.mp hs
      obtain ⟨prev, hprev⟩ := turn_kernel he
      rw [hm] at hprev
      cases hprev
    constructor
    · cases e with
      | turn input => exact absurd rfl (hnoturn input)
      | _ => rfl
    · intro p hp
      have htp : some p = some t := hp.current.symm.trans hcur
      cases htp
      exact ⟨hcur, .inr rfl⟩
  · left
    exact ⟨rfl, fun p hp => ⟨hp.current, hp.mode⟩⟩
  · right
    obtain ⟨prev, hprev⟩ := turn_kernel ht
    obtain ⟨id, hfirst, hlast⟩ := turn_picks h hprev ht
    simp only [observe_s]
    refine ⟨id, prev, hprev, hfirst, hlast, ?_⟩
    rw [picked, hlast.current]
    rfl

/-- The picks of a run go round behind the task that was picked last. -/
theorem picks_inTurn_last {events : List (Event Input)} (hrun : Running w) (hl : Last w.s p)
    (ha : Along (step k) (fun u _ => Awake ids u.s) w events) :
    InTurn ids (p :: picks k w events) ∧ ∀ q ∈ picks k w events, q ∈ ids := by
  induction events generalizing w p with
  | nil => exact ⟨List.isChain_singleton p, fun q hq => absurd hq List.not_mem_nil⟩
  | cons e events ih =>
    cases hs : step k w e with
    | none =>
      have hnil : picks k w (e :: events) = [] := by rw [picks, hs]
      rw [hnil]
      exact ⟨List.isChain_singleton p, fun q hq => absurd hq List.not_mem_nil⟩
    | some w' =>
      have hrun' := running_step hrun hs
      have ha' := along_cons ha hs
      cases step_picks hrun ha.1 hs events with
      | inl hstay =>
        rw [hstay.1]
        exact ih hrun' (hstay.2 p hl) ha'
      | inr hpick =>
        obtain ⟨id, prev, hm, hfirst, hlast, hpicks⟩ := hpick
        have hprev : prev = some p := by
          cases hl.mode with
          | inl hu =>
            rw [hm] at hu
            cases hu
          | inr hk =>
            rw [hm] at hk
            cases hk
            rfl
        subst hprev
        obtain ⟨hturn, hmem⟩ := ih hrun' hlast ha'
        rw [hpicks]
        constructor
        · exact List.isChain_cons_cons.mpr ⟨hfirst, hturn⟩
        · intro q hq
          cases hq with
          | head => exact mem_after (List.mem_of_mem_head? hfirst)
          | tail _ hq => exact hmem q hq

/-- They do from the first pick on, too. -/
theorem picks_inTurn {events : List (Event Input)} (hrun : Running w)
    (ha : Along (step k) (fun u _ => Awake ids u.s) w events) :
    InTurn ids (picks k w events) ∧ ∀ q ∈ picks k w events, q ∈ ids := by
  induction events generalizing w with
  | nil => exact ⟨List.isChain_nil, fun q hq => absurd hq List.not_mem_nil⟩
  | cons e events ih =>
    cases hs : step k w e with
    | none =>
      have hnil : picks k w (e :: events) = [] := by rw [picks, hs]
      rw [hnil]
      exact ⟨List.isChain_nil, fun q hq => absurd hq List.not_mem_nil⟩
    | some w' =>
      have hrun' := running_step hrun hs
      have ha' := along_cons ha hs
      cases step_picks hrun ha.1 hs events with
      | inl hstay =>
        rw [hstay.1]
        exact ih hrun' ha'
      | inr hpick =>
        obtain ⟨id, prev, hm, hfirst, hlast, hpicks⟩ := hpick
        obtain ⟨hturn, hmem⟩ := picks_inTurn_last hrun' hlast ha'
        rw [hpicks]
        constructor
        · exact hturn
        · intro q hq
          cases hq with
          | head => exact mem_after (List.mem_of_mem_head? hfirst)
          | tail _ hq => exact hmem q hq

/-- The entries of `TASKS` in the order of their keys. -/
def Ascending (s : Sched Env Susp) : Prop := (s.tasks.map Prod.fst).Pairwise (· < ·)

theorem ascending_applyEffect {s : Sched Env Susp} {e : Effect Env Susp} (hl : Listed s)
    (h : Ascending s) : Ascending (applyEffect s e) := by
  rw [Ascending, applyEffect, foldl_taskWakerWake]
  cases e.spawned with
  | none => exact h
  | some spawned =>
    obtain ⟨c, g, failed⟩ := spawned
    cases failed with
    | none =>
      change ((s.tasks ++ [(s.nextId, c)]).map Prod.fst).Pairwise (· < ·)
      rw [List.map_append, List.pairwise_append]
      refine ⟨h, List.pairwise_singleton _ _, ?_⟩
      intro a ha b hb
      obtain ⟨x, hx, rfl⟩ := List.mem_map.mp ha
      rw [List.mem_singleton.mp hb]
      exact hl.young x.1 x.2 hx
    | some kept =>
      change ((s.tasks.filter fun x => kept.tasks x.1).map Prod.fst).Pairwise (· < ·)
      exact List.Pairwise.sublist (List.filter_sublist.map Prod.fst) h

theorem ascending_step (hrun : Running w) (hl : Listed w.s) (h : Ascending w.s) {e : Event Input}
    (hs : step k w e = some w') : Ascending w'.s := by
  obtain ⟨t, frame, st, -, -, -, -, rfl⟩ | ⟨code, rfl, rfl⟩ | ⟨input, s', obs, rfl, ht, rfl⟩ :=
    step_cases hrun hs
  · exact h
  · exact h
  · rw [observe_s]
    obtain ⟨id, ctx, -, ⟨f, -, -, rfl⟩ | ⟨-, hp, -⟩⟩ := turn_cases ht
    · exact h
    · cases hp with
      | run f hf hr =>
        rw [taskRun_run hr]
        exact h
      | idle heq =>
        rw [heq]
        exact h
      | serve f call e hf he hd =>
        have hl' : Listed (enter w.s id ctx) := hl.congr rfl rfl
        have hasc := ascending_applyEffect (e := e) hl' h
        rw [Ascending, (dispatch_fields hd).2.2.2.2]
        exact hasc

theorem reached_ascending {env : Env} {ctx : Ctx} {f : TrapFrame} {past : List (Event Input)}
    (hr : run (step k) (initial env ctx f) past = some w) : Running w ∧ Ascending w.s := by
  have hall : Running w ∧ Listed w.s ∧ Ascending w.s := by
    refine invariant (I := fun u => Running u ∧ Listed u.s ∧ Ascending u.s) ?_ ?_ hr
    · intro u e u' hu hs
      exact ⟨running_step hu.1 hs, listed_step hu.1 hu.2.1 hs, ascending_step hu.1 hu.2.1 hu.2.2 hs⟩
    · exact ⟨running_initial env ctx f, listed_initial env ctx f, List.pairwise_singleton _ _⟩
  exact ⟨hall.1, hall.2.2⟩

end step

/-- A search goes through the tasks in cyclic order, and takes the first that does not sleep. So
in every run, as long as the tasks are the same and none of them sleeps, as many picks in a row as
there are tasks are picks of different tasks. -/
theorem picks_go_round (k : Kernel Env Susp Input) :
    (∀ (tasks : List (TaskId × Ctx)) (states : TaskId → Option TaskState) (prev : Option TaskId),
      (tasks.map Prod.fst).Pairwise (· < ·) → (∀ x ∈ tasks, states x.1 ≠ none) →
      CyclicFrom (tasks.map Prod.fst) (prev.getD 0) ((nextTasks tasks prev).map Prod.fst) ∧
      findNextWorkItem states (nextTasks tasks prev) =
        ((nextTasks tasks prev).find? fun x => states x.1 ≠ some .sleep).bind fun x =>
          (states x.1).map fun st => (x.1, x.2, st)) ∧
    ∀ (env : Env) (ctx : Ctx) (f : TrapFrame) (past events : List (Event Input))
      (w : Watched Env Susp) (before window behind : List TaskId),
      run (step k) (initial env ctx f) past = some w →
      Along (step k) (fun u _ => Awake (w.s.tasks.map Prod.fst) u.s) w events →
      picks k w events = before ++ window ++ behind → window.length = w.s.tasks.length →
      window.Nodup := by
  constructor
  · intro tasks states prev hasc hstates
    constructor
    · rw [nextTasks_ids]
      exact cyclicFrom_after hasc _
    · apply findNextWorkItem_eq
      intro x hx
      exact hstates x (mem_nextTasks hx)
  · intro env ctx f past events w before window behind hreach ha hpicks hlen
    obtain ⟨hrun, hasc⟩ := reached_ascending hreach
    obtain ⟨hturn, hmem⟩ := picks_inTurn hrun ha
    have hwindow : window <:+: picks k w events := by
      rw [hpicks]
      exact List.infix_append before window behind
    have hinturn : InTurn (w.s.tasks.map Prod.fst) window := hturn.infix hwindow
    apply hinturn.nodup hasc
    · intro q hq
      exact hmem q (hwindow.subset hq)
    · rw [List.length_map, hlen]

/-- A kernel in which every system call spawns a task. -/
def spawning : Kernel Unit Unit Unit where
  serve := fun _ _ _ _ =>
    some { env := (), spawned := some (9, TrapFrame.new 4 5, none), outcome := .ready 0 }
  keyboard := fun _ _ => ()

/-- Two tasks after the first one has made a call. -/
def spawnOne : List (Event Unit) :=
  [.turn (), .turn (), .syscall (TrapFrame.new 1 2), .turn ()]

def twoTasks : Watched Unit Unit :=
  (run (step spawning) (initial () 7 (TrapFrame.new 1 2)) spawnOne).getD
    (initial () 7 (TrapFrame.new 1 2))

/-- They are picked in turn, across a poll and a return to user mode. -/
theorem two_tasks_go_round :
    findNextWorkItem (fun _ => some .wake) (nextTasks [(1, 7), (2, 9)] (some 1)) =
        some (2, 9, .wake) ∧
      picks spawning twoTasks [.turn (), .turn (), .timer (TrapFrame.new 1 3), .turn ()] =
        [2, 1, 2] ∧ [2, 1].Nodup ∧ [1, 2].Nodup := by
  have hround := picks_go_round spawning
  have hreach : run (step spawning) (initial () 7 (TrapFrame.new 1 2)) spawnOne = some twoTasks :=
    rfl
  have hpicks : picks spawning twoTasks
      [.turn (), .turn (), .timer (TrapFrame.new 1 3), .turn ()] = [2, 1, 2] := by decide
  have ha : Along (step spawning) (fun u _ => Awake (twoTasks.s.tasks.map Prod.fst) u.s) twoTasks
      [.turn (), .turn (), .timer (TrapFrame.new 1 3), .turn ()] := by decide
  refine ⟨?_, hpicks, ?_, ?_⟩
  · rw [(hround.1 [(1, 7), (2, 9)] (fun _ => some .wake) (some 1) (by decide) (by decide)).2]
    decide
  · exact hround.2 () 7 _ spawnOne _ twoTasks [] [2, 1] [2] hreach ha hpicks rfl
  · exact hround.2 () 7 _ spawnOne _ twoTasks [2] [1, 2] [] hreach ha hpicks rfl

end Crabos.Task
