import Crabos.Task.Tables

/-!
# The tables of the tasks over whole runs

The id that `spawn` draws is in no table, or in all of them when the counter has
come round. In the first case it is not in `TASKS` before it is in the two others,
and taking the entries back restores the tables. In the second no insertion
fails, so that nothing is taken back. The tables agree on all other ids.
-/
namespace Crabos.TaskTables

open Crabos.Maps Crabos.Run
open Crabos.Task (TaskId TaskState TrapFrame Ctx)

variable {Fs Fut : Type} {s s' : Statics Fs Fut} {m m' : Machine Fs Fut}

/-- The tables have the same keys, with the possible exception of one id. -/
structure Agree (s : Statics Fs Fut) (but : Option TaskId) : Prop where
  states : ∀ id, but ≠ some id → (id ∈ s.tasks ↔ id ∈ s.states)
  futures : ∀ id, but ≠ some id → (id ∈ s.tasks ↔ id ∈ s.futures)

/-- An id that is in all tables. -/
structure Held (s : Statics Fs Fut) (id : TaskId) : Prop where
  tasks : id ∈ s.tasks
  states : id ∈ s.states
  futures : id ∈ s.futures

/-- An id that is in none. -/
structure New (s : Statics Fs Fut) (id : TaskId) : Prop where
  tasks : id ∉ s.tasks
  states : id ∉ s.states
  futures : id ∉ s.futures

/-- Where a new id is inserted already. -/
def At (s : Statics Fs Fut) (id : TaskId) : Stage → Prop
  | .boxNew | .insertState => id ∉ s.states ∧ id ∉ s.futures
  | .arcNew | .insertFuture => id ∈ s.states ∧ id ∉ s.futures
  | .insertTask => id ∈ s.states ∧ id ∈ s.futures
  | .removeTask | .removeFuture => True
  | .removeState => id ∉ s.futures

def Stage.inserts : Stage → Bool
  | .removeTask | .removeFuture | .removeState => false
  | _ => true

/-- How far a `spawn` has come with a new id, or with one that is in use. -/
def Stand (s : Statics Fs Fut) (id : TaskId) (stage : Stage) : Prop :=
  id ∉ s.tasks ∧ At s id stage ∨ Held s id ∧ stage.inserts = true

def Progress (s : Statics Fs Fut) : Option (Spawn Fs Fut) → Prop
  | none => Agree s none
  | some sp => Agree s (some sp.task.id) ∧ Stand s sp.task.id sp.stage

structure Inv (m : Machine Fs Fut) : Prop where
  progress : Progress m.s m.spawn
  current : ∀ id, m.s.current = some id → id ∈ m.s.tasks
  poll : ∀ id, m.mode = .poll id → id ∈ m.s.tasks

/-- Only values of entries differ. -/
structure SameKeys (s s' : Statics Fs Fut) : Prop where
  tasks : ∀ id, id ∈ s'.tasks ↔ id ∈ s.tasks
  states : ∀ id, id ∈ s'.states ↔ id ∈ s.states
  futures : ∀ id, id ∈ s'.futures ↔ id ∈ s.futures
  current : s'.current = s.current
  allocated : s'.allocated = s.allocated

theorem SameKeys.refl (s : Statics Fs Fut) : SameKeys s s :=
  ⟨fun _ => Iff.rfl, fun _ => Iff.rfl, fun _ => Iff.rfl, rfl, rfl⟩

theorem SameKeys.trans {s₁ s₂ s₃ : Statics Fs Fut} (h₁ : SameKeys s₁ s₂) (h₂ : SameKeys s₂ s₃) :
    SameKeys s₁ s₃ :=
  ⟨fun id => (h₂.tasks id).trans (h₁.tasks id), fun id => (h₂.states id).trans (h₁.states id),
    fun id => (h₂.futures id).trans (h₁.futures id), h₂.current.trans h₁.current,
    h₂.allocated.trans h₁.allocated⟩

theorem SameKeys.agree (h : SameKeys s s') {but : Option TaskId} (ha : Agree s but) :
    Agree s' but where
  states id hb := by
    rw [h.tasks, h.states]
    exact ha.states id hb
  futures id hb := by
    rw [h.tasks, h.futures]
    exact ha.futures id hb

/-- The tables of a task that is in one of them get another value. -/
theorem sameKeys_states {id : TaskId} (h : id ∈ s.states) (st : TaskState) :
    SameKeys s { s with states := s.states.insert id st } :=
  ⟨fun _ => Iff.rfl, fun _ => mem_insert_of_mem h, fun _ => Iff.rfl, rfl, rfl⟩

theorem mem_of_get {V : Type} {t : Map V} {k : Nat} {v : V} (h : t[k]? = some v) : k ∈ t :=
  mem_iff.mpr ⟨v, h⟩

theorem saveCurrentTask_keys {frame : TrapFrame} {prev : Option TaskId}
    (h : saveCurrentTask s frame = .ok (prev, s')) : SameKeys s s' := by
  rw [saveCurrentTask] at h
  split at h
  · cases h
    exact .refl s
  · split at h
    · cases h
    · rename_i hst
      cases h
      exact sameKeys_states (mem_of_get hst) _
    · cases h
      exact .refl s

theorem dispatchSyscall_keys {frame : TrapFrame} {prev : Option TaskId}
    (h : dispatchSyscall s frame = .ok (prev, s')) : SameKeys s s' := by
  rw [dispatchSyscall] at h
  split at h
  · cases h
  · split at h
    · cases h
    · rename_i hst
      exact (sameKeys_states (mem_of_get hst) _).trans (saveCurrentTask_keys h)
    · cases h

theorem taskWakerWake_keys (s : Statics Fs Fut) (id : TaskId) : SameKeys s (taskWakerWake s id) := by
  rw [taskWakerWake]
  split
  · exact .refl s
  · rename_i hst
    exact sameKeys_states (mem_of_get hst) _

theorem runTask_keys {id : TaskId} {frame : TrapFrame} (h : runTask s id frame = .ok s') :
    SameKeys s s' := by
  rw [runTask] at h
  split at h
  · cases h
  · rename_i hst
    cases h
    exact sameKeys_states (mem_of_get hst) _

theorem setFilesystem_keys {fs : Option Fs} (h : setFilesystem s fs = .ok s') : SameKeys s s' := by
  rw [setFilesystem] at h
  split at h
  · cases h
  · split at h
    · cases h
    · rename_i ht
      cases h
      exact ⟨fun _ => mem_insert_of_mem (mem_of_get ht), fun _ => Iff.rfl, fun _ => Iff.rfl, rfl, rfl⟩

/-! The search for work. -/

theorem findAmong_ok {ids : List TaskId} {id : TaskId} {item : WorkItem Fut}
    (h : findAmong s ids = .ok (id, item)) : id ∈ ids := by
  induction ids with
  | nil => cases h
  | cons x ids ih =>
    rw [findAmong] at h
    split at h
    · cases h
    · exact List.mem_cons_of_mem _ (ih h)
    · cases h
      exact List.mem_cons_self
    · split at h
      · cases h
      · cases h
        exact List.mem_cons_self

theorem findAmong_error {ids : List TaskId} {p : Panic}
    (hin : ∀ id ∈ ids, id ∈ s.states ∧ id ∈ s.futures) (h : findAmong s ids = .error p) :
    p.missing = false := by
  induction ids with
  | nil =>
    cases h
    rfl
  | cons x ids ih =>
    obtain ⟨hs, hf⟩ := hin x List.mem_cons_self
    obtain ⟨st, hst⟩ := mem_iff.mp hs
    obtain ⟨fut, hfut⟩ := mem_iff.mp hf
    rw [findAmong, hst] at h
    split at h
    · rename_i hx
      cases hx
    · exact ih (fun id hid => hin id (List.mem_cons_of_mem _ hid)) h
    · cases h
    · rw [hfut] at h
      cases h

theorem mem_nextTasks {prev : Option TaskId} {id : TaskId} (h : id ∈ nextTasks s prev) :
    id ∈ s.tasks := by
  rcases List.mem_append.mp h with h | h
  · exact Std.ExtTreeMap.mem_keys.mp (List.mem_filter.mp h).1
  · exact Std.ExtTreeMap.mem_keys.mp (List.mem_filter.mp h).1

/-! `spawn` -/

/-- The entries of all ids but one are as before. -/
structure Rest (id : TaskId) (s s' : Statics Fs Fut) : Prop where
  tasks : ∀ x, id ≠ x → s'.tasks[x]? = s.tasks[x]?
  states : ∀ x, id ≠ x → s'.states[x]? = s.states[x]?
  futures : ∀ x, id ≠ x → s'.futures[x]? = s.futures[x]?
  current : s'.current = s.current
  allocated : s'.allocated = s.allocated

theorem Rest.refl (id : TaskId) (s : Statics Fs Fut) : Rest id s s :=
  ⟨fun _ _ => rfl, fun _ _ => rfl, fun _ _ => rfl, rfl, rfl⟩

theorem Rest.trans {id : TaskId} {s₁ s₂ s₃ : Statics Fs Fut} (h₁ : Rest id s₁ s₂)
    (h₂ : Rest id s₂ s₃) : Rest id s₁ s₃ :=
  ⟨fun x hx => (h₂.tasks x hx).trans (h₁.tasks x hx),
    fun x hx => (h₂.states x hx).trans (h₁.states x hx),
    fun x hx => (h₂.futures x hx).trans (h₁.futures x hx), h₂.current.trans h₁.current,
    h₂.allocated.trans h₁.allocated⟩

theorem mem_congr {V : Type} {t t' : Map V} {k : Nat} (h : t'[k]? = t[k]?) : k ∈ t' ↔ k ∈ t := by
  rw [mem_iff, mem_iff, h]

theorem Rest.agree {id : TaskId} (h : Rest id s s') (ha : Agree s (some id)) : Agree s' (some id) := by
  have hne : ∀ x, some id ≠ some x → id ≠ x := fun x hx he => hx (congrArg some he)
  constructor
  · intro x hb
    rw [mem_congr (h.tasks x (hne x hb)), mem_congr (h.states x (hne x hb))]
    exact ha.states x hb
  · intro x hb
    rw [mem_congr (h.tasks x (hne x hb)), mem_congr (h.futures x (hne x hb))]
    exact ha.futures x hb

theorem get_erase_ne {V : Type} {t : Map V} {k x : Nat} (h : k ≠ x) : (t.erase k)[x]? = t[x]? :=
  get_erase.trans (if_neg h)

theorem spawnStep_rest (s : Statics Fs Fut) (sp : Spawn Fs Fut) (ok : Bool) :
    Rest sp.task.id s (spawnStep s sp ok).1 := by
  obtain ⟨task, future, stage⟩ := sp
  cases stage with
  | boxNew => exact .refl _ s
  | arcNew => exact .refl _ s
  | insertState =>
    exact ⟨fun _ _ => rfl, fun _ hx => get_tryInsert_ne hx _ _, fun _ _ => rfl, rfl, rfl⟩
  | insertFuture =>
    exact ⟨fun _ _ => rfl, fun _ _ => rfl, fun _ hx => get_tryInsert_ne hx _ _, rfl, rfl⟩
  | insertTask =>
    exact ⟨fun _ hx => get_tryInsert_ne hx _ _, fun _ _ => rfl, fun _ _ => rfl, rfl, rfl⟩
  | removeTask => exact ⟨fun _ hx => get_erase_ne hx, fun _ _ => rfl, fun _ _ => rfl, rfl, rfl⟩
  | removeFuture => exact ⟨fun _ _ => rfl, fun _ _ => rfl, fun _ hx => get_erase_ne hx, rfl, rfl⟩
  | removeState => exact ⟨fun _ _ => rfl, fun _ hx => get_erase_ne hx, fun _ _ => rfl, rfl, rfl⟩

theorem not_mem_erase {V : Type} {t : Map V} {k : Nat} : k ∉ t.erase k :=
  fun h => (mem_erase.mp h).1 rfl

/-- The stages of a new id follow each other. -/
theorem spawnStep_new {sp sp' : Spawn Fs Fut} {ok : Bool} (ht : sp.task.id ∉ s.tasks)
    (hat : At s sp.task.id sp.stage) (h : spawnStep s sp ok = (s', .goOn sp')) :
    sp'.task = sp.task ∧ sp.task.id ∉ s'.tasks ∧ At s' sp.task.id sp'.stage := by
  obtain ⟨task, future, stage⟩ := sp
  cases stage with
  | boxNew =>
    cases ok with
    | false => cases h
    | true =>
      cases h
      exact ⟨rfl, ht, hat⟩
  | insertState =>
    simp only [spawnStep, Spawn.after, fits_of_not_mem hat.1] at h
    cases h
    cases ok with
    | false => exact ⟨rfl, ht, trivial⟩
    | true => exact ⟨rfl, ht, mem_tryInsert_self (fits_of_not_mem hat.1 true) _, hat.2⟩
  | arcNew =>
    cases ok with
    | false => cases h
    | true =>
      cases h
      exact ⟨rfl, ht, hat⟩
  | insertFuture =>
    simp only [spawnStep, Spawn.after, fits_of_not_mem hat.2] at h
    cases h
    cases ok with
    | false => exact ⟨rfl, ht, trivial⟩
    | true => exact ⟨rfl, ht, hat.1, mem_tryInsert_self (fits_of_not_mem hat.2 true) _⟩
  | insertTask =>
    have hfits := fits_of_not_mem ht ok
    simp only [spawnStep, hfits] at h
    cases ok with
    | false =>
      cases h
      exact ⟨rfl, by rw [tryInsert_full hfits]; exact ht, trivial⟩
    | true => cases h
  | removeTask =>
    cases h
    exact ⟨rfl, not_mem_erase, trivial⟩
  | removeFuture =>
    cases h
    exact ⟨rfl, ht, not_mem_erase⟩
  | removeState => cases h

/-- A task with a new id is in all tables in the end, or in none. -/
theorem spawnStep_new_ret {sp : Spawn Fs Fut} {ok : Bool} {r : Except MemoryExhausted TaskId}
    (ht : sp.task.id ∉ s.tasks) (hat : At s sp.task.id sp.stage)
    (h : spawnStep s sp ok = (s', .ret r)) :
    (r = .ok sp.task.id ∧ Held s' sp.task.id) ∨ (r = .error ⟨⟩ ∧ New s' sp.task.id) := by
  obtain ⟨task, future, stage⟩ := sp
  cases stage with
  | boxNew =>
    cases ok with
    | false =>
      cases h
      exact .inr ⟨rfl, ht, hat.1, hat.2⟩
    | true => cases h
  | insertTask =>
    have hfits := fits_of_not_mem ht ok
    simp only [spawnStep, hfits] at h
    cases ok with
    | false => cases h
    | true =>
      cases h
      exact .inl ⟨rfl, mem_tryInsert_self hfits _, hat.1, hat.2⟩
  | removeState =>
    cases h
    exact .inr ⟨rfl, ht, not_mem_erase, hat⟩
  | insertState => cases h
  | arcNew => cases ok <;> cases h
  | insertFuture => cases h
  | removeTask => cases h
  | removeFuture => cases h

/-- With an id that is in use every insertion is made. -/
theorem spawnStep_held {sp sp' : Spawn Fs Fut} {ok : Bool} (hh : Held s sp.task.id)
    (hin : sp.stage.inserts = true) (h : spawnStep s sp ok = (s', .goOn sp')) :
    sp'.task = sp.task ∧ Held s' sp.task.id ∧ sp'.stage.inserts = true ∧ sp'.stage ≠ .boxNew := by
  obtain ⟨task, future, stage⟩ := sp
  cases stage with
  | boxNew =>
    cases ok with
    | false => cases h
    | true =>
      cases h
      exact ⟨rfl, hh, rfl, Stage.noConfusion⟩
  | insertState =>
    simp only [spawnStep, Spawn.after, fits_of_mem hh.states] at h
    cases h
    exact ⟨rfl, ⟨hh.tasks, mem_tryInsert hh.states _ _, hh.futures⟩, rfl, Stage.noConfusion⟩
  | arcNew =>
    cases ok with
    | false => cases h
    | true =>
      cases h
      exact ⟨rfl, hh, rfl, Stage.noConfusion⟩
  | insertFuture =>
    simp only [spawnStep, Spawn.after, fits_of_mem hh.futures] at h
    cases h
    exact ⟨rfl, ⟨hh.tasks, hh.states, mem_tryInsert hh.futures _ _⟩, rfl, Stage.noConfusion⟩
  | insertTask =>
    simp only [spawnStep, fits_of_mem hh.tasks] at h
    cases h
  | removeTask => cases hin
  | removeFuture => cases hin
  | removeState => cases hin

theorem spawnStep_held_ret {sp : Spawn Fs Fut} {ok : Bool} {r : Except MemoryExhausted TaskId}
    (hh : Held s sp.task.id) (hin : sp.stage.inserts = true) (h : spawnStep s sp ok = (s', .ret r)) :
    Held s' sp.task.id ∧ (r = .error ⟨⟩ → sp.stage = .boxNew ∧ s' = s) := by
  obtain ⟨task, future, stage⟩ := sp
  cases stage with
  | boxNew =>
    cases ok with
    | false =>
      cases h
      exact ⟨hh, fun _ => ⟨rfl, rfl⟩⟩
    | true => cases h
  | insertTask =>
    simp only [spawnStep, fits_of_mem hh.tasks] at h
    cases h
    refine ⟨⟨mem_tryInsert hh.tasks _ _, hh.states, hh.futures⟩, fun hr => ?_⟩
    cases hr
  | insertState => cases h
  | arcNew => cases ok <;> cases h
  | insertFuture => cases h
  | removeTask => cases hin
  | removeFuture => cases hin
  | removeState => cases hin

theorem Stand.goOn {sp sp' : Spawn Fs Fut} {ok : Bool} (hst : Stand s sp.task.id sp.stage)
    (h : spawnStep s sp ok = (s', .goOn sp')) :
    sp'.task = sp.task ∧ Stand s' sp.task.id sp'.stage := by
  rcases hst with ⟨ht, hat⟩ | ⟨hh, hin⟩
  · obtain ⟨htask, hnew⟩ := spawnStep_new ht hat h
    exact ⟨htask, .inl hnew⟩
  · obtain ⟨htask, hh', hin', -⟩ := spawnStep_held hh hin h
    exact ⟨htask, .inr ⟨hh', hin'⟩⟩

theorem Stand.ret {sp : Spawn Fs Fut} {ok : Bool} {r : Except MemoryExhausted TaskId}
    (hst : Stand s sp.task.id sp.stage) (h : spawnStep s sp ok = (s', .ret r)) :
    Held s' sp.task.id ∨ New s' sp.task.id := by
  rcases hst with ⟨ht, hat⟩ | ⟨hh, hin⟩
  · rcases spawnStep_new_ret ht hat h with ⟨-, hh⟩ | ⟨-, hn⟩
    · exact .inl hh
    · exact .inr hn
  · exact .inl (spawnStep_held_ret hh hin h).1

/-- No task goes. -/
theorem Stand.tasks {sp : Spawn Fs Fut} (hst : Stand s sp.task.id sp.stage) (ok : Bool) {id : TaskId}
    (h : id ∈ s.tasks) : id ∈ (spawnStep s sp ok).1.tasks := by
  obtain ⟨task, future, stage⟩ := sp
  cases stage with
  | insertTask => exact mem_tryInsert h _ _
  | removeTask =>
    rcases hst with ⟨ht, -⟩ | ⟨-, hin⟩
    · refine mem_erase.mpr ⟨?_, h⟩
      rintro rfl
      exact ht h
    · cases hin
  | boxNew => exact h
  | insertState => exact h
  | arcNew => exact h
  | insertFuture => exact h
  | removeFuture => exact h
  | removeState => exact h

/-- A `spawn` that returns leaves tables with the same keys. -/
theorem Agree.close {id : TaskId} (ha : Agree s (some id)) (h : Held s id ∨ New s id) :
    Agree s none where
  states x _ := by
    by_cases hne : id = x
    · subst hne
      rcases h with h | h
      · exact ⟨fun _ => h.states, fun _ => h.tasks⟩
      · exact ⟨fun hx => absurd hx h.tasks, fun hx => absurd hx h.states⟩
    · exact ha.states x fun hs => hne (Option.some.inj hs)
  futures x _ := by
    by_cases hne : id = x
    · subst hne
      rcases h with h | h
      · exact ⟨fun _ => h.futures, fun _ => h.tasks⟩
      · exact ⟨fun hx => absurd hx h.tasks, fun hx => absurd hx h.futures⟩
    · exact ha.futures x fun hs => hne (Option.some.inj hs)

/-- The id that `spawn` draws. -/
theorem Agree.drawn (ha : Agree s none) (id : TaskId) : New s id ∨ Held s id := by
  have hs := ha.states id (by simp)
  have hf := ha.futures id (by simp)
  by_cases h : id ∈ s.tasks
  · exact .inr ⟨h, hs.mp h, hf.mp h⟩
  · exact .inl ⟨h, fun hx => h (hs.mpr hx), fun hx => h (hf.mpr hx)⟩

theorem Agree.open (ha : Agree s none) (id : TaskId) : Agree s (some id) :=
  ⟨fun x _ => ha.states x (by simp), fun x _ => ha.futures x (by simp)⟩

theorem Stand.begin {id : TaskId} (h : New s id ∨ Held s id) : Stand s id .boxNew := by
  rcases h with h | h
  · exact .inl ⟨h.tasks, h.states, h.futures⟩
  · exact .inr ⟨h, rfl⟩

/-! One step. -/

/-- What a step can do to the tables. -/
inductive Stepped (m : Machine Fs Fut) (a : Act Fs Fut) (m' : Machine Fs Fut) : Prop
  | goOn {sp sp' : Spawn Fs Fut} {ok : Bool} (act : a = .spawnStep ok) (spawn : m.spawn = some sp)
      (next : spawnStep m.s sp ok = (m'.s, .goOn sp')) (spawn' : m'.spawn = some sp')
      (mode : m'.mode = m.mode)
  | ret {sp : Spawn Fs Fut} {ok : Bool} {r : Except MemoryExhausted TaskId}
      (act : a = .spawnStep ok) (spawn : m.spawn = some sp)
      (next : spawnStep m.s sp ok = (m'.s, .ret r)) (spawn' : m'.spawn = none)
      (mode : m'.mode = m.mode) (returned : m'.returned = some r)
  | spawn {sp : Spawn Fs Fut} (act : a.isSpawn = true) (spawn : m.spawn = none)
      (id : sp.task.id = (1 + m.s.allocated) % 2 ^ 64) (stage : sp.stage = .boxNew)
      (s' : m'.s = { m.s with allocated := m.s.allocated + 1 }) (spawn' : m'.spawn = some sp)
      (mode : m'.mode = m.mode)
  | keys (act : a.isSpawn = false) (spawn : m.spawn = none) (spawn' : m'.spawn = none)
      (same : SameKeys m.s m'.s) (mode : ∀ id, m'.mode = .poll id → m.mode = .poll id)
  | turn {id : TaskId} (act : a.isSpawn = false) (spawn : m.spawn = none) (spawn' : m'.spawn = none)
      (task : id ∈ m.s.tasks) (s' : m'.s = { m.s with current := some id })
      (mode : ∀ x, m'.mode = .poll x → x = id)

theorem turn_ok {prev : Option TaskId} {id : TaskId} {item : WorkItem Fut} {ctx : Ctx}
    (h : turn s prev = .ok (id, item, ctx, s')) :
    id ∈ s.tasks ∧ s' = { s with current := some id } := by
  rw [turn] at h
  split at h
  · cases h
  · split at h
    · cases h
    · rename_i ht
      cases h
      exact ⟨mem_of_get ht, rfl⟩

theorem enter_ok {x : Except Panic (Option TaskId × Statics Fs Fut)} (h : m.enter x = .ok m') :
    ∃ prev s, x = .ok (prev, s) ∧ m' = { m with s := s, mode := .loop prev } := by
  cases x with
  | error p => cases h
  | ok y =>
    obtain ⟨prev, s⟩ := y
    cases h
    exact ⟨prev, s, rfl, rfl⟩

theorem map_ok {α β : Type} {x : Except Panic α} {f : α → β} {b : β} (h : x.map f = .ok b) :
    ∃ a, x = .ok a ∧ f a = b := by
  cases x with
  | error p => cases h
  | ok a =>
    cases h
    exact ⟨a, rfl, rfl⟩

theorem stepped_of_enter (hspawn : m.spawn = none) {a : Act Fs Fut} (ha : a.isSpawn = false)
    {x : Except Panic (Option TaskId × Statics Fs Fut)}
    (hkeys : ∀ prev s, x = .ok (prev, s) → SameKeys m.s s) (h : m.enter x = .ok m') :
    Stepped m a m' := by
  obtain ⟨prev, s, hx, rfl⟩ := enter_ok h
  exact .keys ha hspawn hspawn (hkeys prev s hx) (fun _ hm => by cases hm)

theorem stepped_of_exec {a : Act Fs Fut} (h : exec m a = some (.ok m')) : Stepped m a m' := by
  unfold exec at h
  split at h
  · rename_i sp ok hspawn
    split at h
    · rename_i s sp' hn
      cases h
      exact .goOn rfl hspawn hn rfl rfl
    · rename_i s r hn
      cases h
      exact .ret rfl hspawn hn rfl rfl rfl
    · cases h
  · cases h
  · rename_i hspawn
    have hspawn : m.spawn = none := hspawn
    split at h
    · cases h
      exact .spawn rfl hspawn rfl rfl rfl rfl rfl
    · cases h
      exact .spawn rfl hspawn rfl rfl rfl rfl rfl
    · exact stepped_of_enter hspawn rfl (fun _ _ hx => saveCurrentTask_keys hx) (Option.some.inj h)
    · exact stepped_of_enter hspawn rfl (fun _ _ hx => saveCurrentTask_keys hx) (Option.some.inj h)
    · exact stepped_of_enter hspawn rfl (fun _ _ hx => dispatchSyscall_keys hx) (Option.some.inj h)
    · obtain ⟨⟨id, item, ctx, s⟩, ht, hm⟩ := map_ok (Option.some.inj h)
      obtain ⟨hid, hs⟩ := turn_ok ht
      cases item with
      | kernel future =>
        subst hm
        exact .turn rfl hspawn hspawn hid hs fun x hx => (Mode.poll.inj hx).symm
      | user frame =>
        subst hm
        exact .turn rfl hspawn hspawn hid hs fun x hx => by cases hx
    · obtain ⟨s, hs, rfl⟩ := map_ok (Option.some.inj h)
      exact .keys rfl hspawn hspawn (runTask_keys hs) fun _ hm => hm
    · obtain ⟨x, -, rfl⟩ := map_ok (Option.some.inj h)
      exact .keys rfl hspawn hspawn (.refl _) fun _ hm => hm
    · obtain ⟨s, hs, rfl⟩ := map_ok (Option.some.inj h)
      exact .keys rfl hspawn hspawn (setFilesystem_keys hs) fun _ hm => hm
    · cases h
      exact .keys rfl hspawn hspawn (.refl _) fun _ hm => by cases hm
    · cases h
    · cases h
      exact .keys rfl hspawn hspawn (taskWakerWake_keys _ _) fun _ hm => hm
    · cases h

theorem stepped {a : Act Fs Fut} (h : step m a = some m') : Stepped m a m' := by
  obtain ⟨x, hx, h⟩ := Option.bind_eq_some_iff.mp h
  cases x with
  | error p => cases h
  | ok y =>
    cases h
    exact stepped_of_exec hx

theorem Stepped.inv {a : Act Fs Fut} (h : Stepped m a m') (hi : Inv m) : Inv m' := by
  have hp := hi.progress
  cases h with
  | @goOn sp sp' ok act spawn next spawn' mode =>
    rw [spawn] at hp
    obtain ⟨hagree, hst⟩ := hp
    have hrest := spawnStep_rest m.s sp ok
    have hkeep : ∀ id ∈ m.s.tasks, id ∈ (spawnStep m.s sp ok).1.tasks := fun _ h => hst.tasks ok h
    rw [next] at hrest hkeep
    obtain ⟨htask, hst'⟩ := hst.goOn next
    refine ⟨?_, fun id hc => ?_, fun id hm => ?_⟩
    · rw [spawn', Progress, htask]
      exact ⟨hrest.agree hagree, hst'⟩
    · rw [hrest.current] at hc
      exact hkeep id (hi.current id hc)
    · rw [mode] at hm
      exact hkeep id (hi.poll id hm)
  | @ret sp ok r act spawn next spawn' mode returned =>
    rw [spawn] at hp
    obtain ⟨hagree, hst⟩ := hp
    have hrest := spawnStep_rest m.s sp ok
    have hkeep : ∀ id ∈ m.s.tasks, id ∈ (spawnStep m.s sp ok).1.tasks := fun _ h => hst.tasks ok h
    rw [next] at hrest hkeep
    refine ⟨?_, fun id hc => ?_, fun id hm => ?_⟩
    · rw [spawn']
      exact (hrest.agree hagree).close (hst.ret next)
    · rw [hrest.current] at hc
      exact hkeep id (hi.current id hc)
    · rw [mode] at hm
      exact hkeep id (hi.poll id hm)
  | @spawn sp act spawn id stage s' spawn' mode =>
    rw [spawn] at hp
    refine ⟨?_, fun x hc => ?_, fun x hm => ?_⟩
    · have hp' : Agree m'.s none := by
        rw [s']
        exact ⟨hp.states, hp.futures⟩
      rw [spawn', Progress, stage]
      exact ⟨hp'.open _, .begin (hp'.drawn _)⟩
    · rw [s'] at hc ⊢
      exact hi.current x hc
    · rw [mode] at hm
      rw [s']
      exact hi.poll x hm
  | keys act spawn spawn' same mode =>
    rw [spawn] at hp
    refine ⟨?_, fun id hc => ?_, fun id hm => ?_⟩
    · rw [spawn']
      exact same.agree hp
    · rw [same.current] at hc
      exact (same.tasks id).mpr (hi.current id hc)
    · exact (same.tasks id).mpr (hi.poll id (mode id hm))
  | turn act spawn spawn' task s' mode =>
    rw [spawn] at hp
    refine ⟨?_, fun id hc => ?_, fun id hm => ?_⟩
    · rw [spawn', s']
      exact ⟨hp.states, hp.futures⟩
    · rw [s'] at hc ⊢
      cases hc
      exact task
    · rw [s', mode id hm]
      exact task

/-! Panics. -/

theorem Inv.tables (hi : Inv m) {id : TaskId} (h : id ∈ m.s.tasks) :
    id ∈ m.s.states ∧ id ∈ m.s.futures := by
  have hp := hi.progress
  cases hspawn : m.spawn with
  | none =>
    rw [hspawn] at hp
    exact ⟨(hp.states id (by simp)).mp h, (hp.futures id (by simp)).mp h⟩
  | some sp =>
    rw [hspawn] at hp
    obtain ⟨hagree, hst⟩ := hp
    by_cases hid : sp.task.id = id
    · subst hid
      rcases hst with ⟨ht, -⟩ | ⟨hh, -⟩
      · exact absurd h ht
      · exact ⟨hh.states, hh.futures⟩
    · have hne : some sp.task.id ≠ some id := fun he => hid (Option.some.inj he)
      exact ⟨(hagree.states id hne).mp h, (hagree.futures id hne).mp h⟩

theorem saveCurrentTask_error {frame : TrapFrame} {p : Panic}
    (hin : ∀ id, s.current = some id → id ∈ s.states) (h : saveCurrentTask s frame = .error p) :
    p.missing = false := by
  rw [saveCurrentTask] at h
  split at h
  · cases h
  · rename_i current hc
    obtain ⟨st, hst⟩ := mem_iff.mp (hin current hc)
    rw [hst] at h
    split at h
    · rename_i hx
      cases hx
    · cases h
    · cases h

theorem dispatchSyscall_error {frame : TrapFrame} {p : Panic}
    (hin : ∀ id, s.current = some id → id ∈ s.states) (h : dispatchSyscall s frame = .error p) :
    p.missing = false := by
  rw [dispatchSyscall] at h
  split at h
  · cases h
    rfl
  · rename_i current hc
    obtain ⟨st, hst⟩ := mem_iff.mp (hin current hc)
    rw [hst] at h
    split at h
    · rename_i hx
      cases hx
    · refine saveCurrentTask_error (fun id hid => ?_) h
      exact mem_insert.mpr (.inr (hin id hid))
    · cases h
      rfl

theorem turn_error {prev : Option TaskId} {p : Panic}
    (hin : ∀ id ∈ s.tasks, id ∈ s.states ∧ id ∈ s.futures) (h : turn s prev = .error p) :
    p.missing = false := by
  rw [turn] at h
  split at h
  · rename_i hf
    cases h
    exact findAmong_error (fun id hid => hin id (mem_nextTasks hid)) hf
  · rename_i id item hf
    obtain ⟨task, ht⟩ := mem_iff.mp (mem_nextTasks (findAmong_ok hf))
    rw [ht] at h
    cases h

theorem runTask_error {id : TaskId} {frame : TrapFrame} {p : Panic} (hin : id ∈ s.states)
    (h : runTask s id frame = .error p) : p.missing = false := by
  obtain ⟨st, hst⟩ := mem_iff.mp hin
  rw [runTask, hst] at h
  cases h

theorem resumePoll_error {id : TaskId} {p : Panic} (hin : id ∈ s.states)
    (h : resumePoll s id = .error p) : p.missing = false := by
  obtain ⟨st, hst⟩ := mem_iff.mp hin
  rw [resumePoll, hst] at h
  cases st with
  | sleep =>
    cases h
    rfl
  | syscallEntry f => cases h
  | wake => cases h
  | user f => cases h

theorem setFilesystem_error {fs : Option Fs} {p : Panic}
    (hin : ∀ id, s.current = some id → id ∈ s.tasks) (h : setFilesystem s fs = .error p) :
    p.missing = false := by
  rw [setFilesystem] at h
  split at h
  · cases h
    rfl
  · rename_i current hc
    obtain ⟨task, ht⟩ := mem_iff.mp (hin current hc)
    rw [ht] at h
    cases h

theorem map_error {α β : Type} {x : Except Panic α} {f : α → β} {p : Panic}
    (h : x.map f = .error p) : x = .error p := by
  cases x with
  | error q =>
    cases h
    rfl
  | ok a => cases h

theorem spawnStep_panic {sp : Spawn Fs Fut} {ok : Bool} {p : Panic}
    (h : spawnStep s sp ok = (s', .panic p)) : p.missing = false := by
  obtain ⟨task, future, stage⟩ := sp
  cases stage with
  | arcNew =>
    cases ok with
    | false =>
      cases h
      rfl
    | true => cases h
  | boxNew => cases ok <;> cases h
  | insertTask =>
    simp only [spawnStep] at h
    split at h
    · cases h
    · cases h
  | insertState => cases h
  | insertFuture => cases h
  | removeTask => cases h
  | removeFuture => cases h
  | removeState => cases h

/-- No `expect` finds an id missing. -/
theorem Inv.not_missing (hi : Inv m) {a : Act Fs Fut} {p : Panic}
    (h : exec m a = some (.error p)) : p.missing = false := by
  have hcur : ∀ id, m.s.current = some id → id ∈ m.s.states := fun id hc =>
    (hi.tables (hi.current id hc)).1
  unfold exec at h
  split at h
  · split at h
    · cases h
    · cases h
    · rename_i p' hn
      cases h
      exact spawnStep_panic hn
  · cases h
  · split at h
    · cases h
    · cases h
    · exact saveCurrentTask_error hcur (map_error (Option.some.inj h))
    · exact saveCurrentTask_error hcur (map_error (Option.some.inj h))
    · exact dispatchSyscall_error hcur (map_error (Option.some.inj h))
    · exact turn_error (fun id => hi.tables) (map_error (Option.some.inj h))
    · rename_i id frame hmode
      exact runTask_error (hi.tables (hi.poll id hmode)).1 (map_error (Option.some.inj h))
    · rename_i id hmode
      exact resumePoll_error (hi.tables (hi.poll id hmode)).1 (map_error (Option.some.inj h))
    · exact setFilesystem_error hi.current (map_error (Option.some.inj h))
    · cases h
    · cases h
      rfl
    · cases h
    · cases h

/-! A `spawn` from its beginning to its end. -/

theorem step_spawnStep_idle (h : m.spawn = none) (ok : Bool) : step m (.spawnStep ok) = none := by
  have hexec : exec m (.spawnStep ok) = none := by
    unfold exec
    rw [h]
    cases m.mode with
    | boot => rfl
    | user => rfl
    | loop prev => rfl
    | poll id => rfl
  rw [step, hexec]
  rfl

/-- The tables since a `spawn` with this id began. -/
def Since (s : Statics Fs Fut) (id : TaskId) (m : Machine Fs Fut) : Prop :=
  Rest id s m.s ∧
  match m.spawn with
  | some sp => sp.task.id = id ∧ id ∉ m.s.tasks ∧ At m.s id sp.stage
  | none => m.returned = some (.error ⟨⟩) → New m.s id

/-- The same for an id that is in use. -/
def SinceHeld (s : Statics Fs Fut) (id : TaskId) (m : Machine Fs Fut) : Prop :=
  match m.spawn with
  | some sp => sp.task.id = id ∧ Held m.s id ∧ sp.stage.inserts = true ∧ (sp.stage = .boxNew → m.s = s)
  | none => m.returned = some (.error ⟨⟩) → m.s = s

theorem since_step {id : TaskId} (h : Since s id m) {ok : Bool} (hs : step m (.spawnStep ok) = some m') :
    Since s id m' := by
  obtain ⟨hrest, hsp⟩ := h
  cases hspawn : m.spawn with
  | none =>
    rw [step_spawnStep_idle hspawn] at hs
    cases hs
  | some sp =>
    rw [hspawn] at hsp
    obtain ⟨rfl, ht, hat⟩ := hsp
    have hr := spawnStep_rest m.s sp ok
    cases stepped hs with
    | goOn act spawn next spawn' mode =>
      cases act
      cases hspawn.symm.trans spawn
      rw [next] at hr
      obtain ⟨htask, ht', hat'⟩ := spawnStep_new ht hat next
      refine ⟨hrest.trans hr, ?_⟩
      rw [spawn']
      exact ⟨congrArg Task.id htask, ht', hat'⟩
    | ret act spawn next spawn' mode returned =>
      cases act
      cases hspawn.symm.trans spawn
      rw [next] at hr
      refine ⟨hrest.trans hr, ?_⟩
      rw [spawn']
      intro herr
      rcases spawnStep_new_ret ht hat next with ⟨rfl, -⟩ | ⟨-, hnone⟩
      · rw [returned] at herr
        cases herr
      · exact hnone
    | spawn act spawn id stage s' spawn' mode => cases act
    | keys act spawn spawn' same mode => cases hspawn.symm.trans spawn
    | turn act spawn spawn' task s' mode => cases hspawn.symm.trans spawn

theorem sinceHeld_step {id : TaskId} (h : SinceHeld s id m) {ok : Bool}
    (hs : step m (.spawnStep ok) = some m') : SinceHeld s id m' := by
  cases hspawn : m.spawn with
  | none =>
    rw [step_spawnStep_idle hspawn] at hs
    cases hs
  | some sp =>
    rw [SinceHeld, hspawn] at h
    obtain ⟨rfl, hh, hin, hbox⟩ := h
    cases stepped hs with
    | goOn act spawn next spawn' mode =>
      cases act
      cases hspawn.symm.trans spawn
      obtain ⟨htask, hh', hin', hne⟩ := spawnStep_held hh hin next
      rw [SinceHeld, spawn']
      exact ⟨congrArg Task.id htask, hh', hin', fun hb => absurd hb hne⟩
    | ret act spawn next spawn' mode returned =>
      cases act
      cases hspawn.symm.trans spawn
      rw [SinceHeld, spawn']
      intro herr
      rw [returned] at herr
      obtain ⟨hb, he⟩ := (spawnStep_held_ret hh hin next).2 (Option.some.inj herr)
      exact he.trans (hbox hb)
    | spawn act spawn id stage s' spawn' mode => cases act
    | keys act spawn spawn' same mode => cases hspawn.symm.trans spawn
    | turn act spawn spawn' task s' mode => cases hspawn.symm.trans spawn

theorem map_ext {V : Type} {t t' : Map V} {id : Nat} (hrest : ∀ x, id ≠ x → t'[x]? = t[x]?)
    (h : id ∉ t) (h' : id ∉ t') : t' = t := by
  refine Std.ExtTreeMap.ext_getElem? fun x => ?_
  by_cases hx : id = x
  · subst hx
    rw [get_none h, get_none h']
  · exact hrest x hx

/-- A `spawn` that fails leaves the tables as they were. -/
theorem Inv.spawn_fails (hi : Inv m) {a : Act Fs Fut} (ha : a.isSpawn = true) {oks : List Bool}
    (hrun : run step m (a :: oks.map .spawnStep) = some m') (hdone : m'.spawn = none)
    (herr : m'.returned = some (.error ⟨⟩)) :
    m'.s.tasks = m.s.tasks ∧ m'.s.states = m.s.states ∧ m'.s.futures = m.s.futures := by
  rw [run_cons] at hrun
  obtain ⟨m₁, h₁, hrun⟩ := Option.bind_eq_some_iff.mp hrun
  have halong : ∀ x : Machine Fs Fut,
      Along step (fun _ a => ∃ ok, a = .spawnStep ok) x (oks.map .spawnStep) := fun x =>
    along_of_forall x _ fun _ a ha => by
      obtain ⟨ok, -, rfl⟩ := List.mem_map.mp ha
      exact ⟨ok, rfl⟩
  cases stepped h₁ with
  | goOn act spawn next spawn' mode =>
    rw [act] at ha
    cases ha
  | ret act spawn next spawn' mode returned =>
    rw [act] at ha
    cases ha
  | keys act spawn spawn' same mode =>
    rw [act] at ha
    cases ha
  | turn act spawn spawn' task s' mode =>
    rw [act] at ha
    cases ha
  | @spawn sp act spawn id stage s' spawn' mode =>
    have hp := hi.progress
    rw [spawn] at hp
    rcases Agree.drawn hp sp.task.id with hn | hh
    · have hstart : Since m₁.s sp.task.id m₁ := by
        refine ⟨.refl _ _, ?_⟩
        rw [spawn', s']
        refine ⟨rfl, hn.tasks, ?_⟩
        rw [stage]
        exact ⟨hn.states, hn.futures⟩
      have hend : Since m₁.s sp.task.id m' :=
        invariant_along (fun x a y hx hc hs => by
          obtain ⟨ok, rfl⟩ := hc
          exact since_step hx hs) hstart (halong m₁) hrun
      obtain ⟨hrest, hsp⟩ := hend
      rw [hdone] at hsp
      have hn' := hsp herr
      rw [s'] at hrest
      exact ⟨map_ext hrest.tasks hn.tasks hn'.tasks, map_ext hrest.states hn.states hn'.states,
        map_ext hrest.futures hn.futures hn'.futures⟩
    · have hstart : SinceHeld m₁.s sp.task.id m₁ := by
        rw [SinceHeld, spawn', s']
        exact ⟨rfl, ⟨hh.tasks, hh.states, hh.futures⟩, by rw [stage]; rfl, fun _ => rfl⟩
      have hend : SinceHeld m₁.s sp.task.id m' :=
        invariant_along (fun x a y hx hc hs => by
          obtain ⟨ok, rfl⟩ := hc
          exact sinceHeld_step hx hs) hstart (halong m₁) hrun
      rw [SinceHeld, hdone] at hend
      rw [hend herr, s']
      exact ⟨rfl, rfl, rfl⟩

theorem initial_inv (Fs Fut : Type) : Inv (initial Fs Fut) where
  progress := by
    refine ⟨fun id _ => ?_, fun id _ => ?_⟩
    · exact ⟨fun hx => absurd hx Std.ExtTreeMap.not_mem_empty,
        fun hx => absurd hx Std.ExtTreeMap.not_mem_empty⟩
    · exact ⟨fun hx => absurd hx Std.ExtTreeMap.not_mem_empty,
        fun hx => absurd hx Std.ExtTreeMap.not_mem_empty⟩
  current id hc := by cases hc
  poll id hm := by cases hm

theorem inv_of_run {acts : List (Act Fs Fut)} (hrun : run step (initial Fs Fut) acts = some m) :
    Inv m :=
  invariant (fun _ _ _ hx hs => (stepped hs).inv hx) (initial_inv Fs Fut) hrun

/-- In every state of a run, between the insertions and removals of a `spawn`
too, the tasks have their states and futures and the current task is one of
them; when no `spawn` is under way the tables have the same keys, and a `spawn`
that fails has changed none of them; no `expect` finds an id missing. -/
theorem tables_agree {acts : List (Act Fs Fut)} (hrun : run step (initial Fs Fut) acts = some m) :
    (∀ id ∈ m.s.tasks, id ∈ m.s.states ∧ id ∈ m.s.futures) ∧
    (∀ id, m.s.current = some id → id ∈ m.s.tasks) ∧
    (m.spawn = none → ∀ id, (id ∈ m.s.tasks ↔ id ∈ m.s.states) ∧ (id ∈ m.s.tasks ↔ id ∈ m.s.futures)) ∧
    (∀ (a : Act Fs Fut) (oks : List Bool) (m' : Machine Fs Fut), a.isSpawn = true →
      run step m (a :: oks.map .spawnStep) = some m' → m'.spawn = none →
      m'.returned = some (.error ⟨⟩) →
      m'.s.tasks = m.s.tasks ∧ m'.s.states = m.s.states ∧ m'.s.futures = m.s.futures) ∧
    ∀ (a : Act Fs Fut) (p : Panic), exec m a = some (.error p) → p.missing = false := by
  have hi := inv_of_run hrun
  refine ⟨fun id => hi.tables, hi.current, fun hspawn id => ?_, fun a oks m' ha => hi.spawn_fails ha,
    fun a p => hi.not_missing⟩
  have hp := hi.progress
  rw [hspawn] at hp
  exact ⟨hp.states id (by simp), hp.futures id (by simp)⟩

/-- The first task, and a second one in the middle of its roll back. -/
def midway : List (Act Unit Unit) :=
  [.spawn 0 none (), .spawnStep true, .spawnStep true, .spawnStep true, .spawnStep true,
    .spawnStep true, .start (TrapFrame.new 0 0), .turn, .spawn 0 none (), .spawnStep true,
    .spawnStep true, .spawnStep true, .spawnStep false, .spawnStep true]

theorem tables_agree_midway :
    ∃ m, run step (initial Unit Unit) midway = some m ∧ 2 ∈ m.s.states ∧
      (∀ id ∈ m.s.tasks, id ∈ m.s.states ∧ id ∈ m.s.futures) ∧
      (∀ id, m.s.current = some id → id ∈ m.s.tasks) ∧
      ∀ a p, exec m a = some (.error p) → p.missing = false := by
  have hrun : (run step (initial Unit Unit) midway).any (fun m => m.s.states.contains 2) = true := by
    decide
  obtain ⟨m, hm, h2⟩ := exists_of_any hrun
  obtain ⟨h₁, h₂, -, -, h₃⟩ := tables_agree hm
  exact ⟨m, hm, h2, h₁, h₂, h₃⟩

end Crabos.TaskTables
