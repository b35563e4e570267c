import Crabos.Lib.Maps
import Crabos.Lib.Run

/-!
# Handles (`kernel/src/object.rs`)

`TASK_HANDLES` has a table of handles for every task that has asked for one.
The lock is held throughout each operation, so they are single steps; what an
operation returned is noted in the order of the steps. The two insertions of
`put` can fail, each on its own. A `none` is a panic.
-/
namespace Crabos.Object

open Crabos.Maps Crabos.Run

abbrev Handle := Nat

variable {Obj : Type}

abbrev Tables (Obj : Type) := Map (Map Obj)

/-- The operations of the module; a `put` comes with the answers of the
allocator to its two insertions. -/
inductive Op (Obj : Type) where
  | put (t : Nat) (o : Obj) (table entry : Bool)
  | get (t : Nat) (h : Handle)
  | release (t : Nat) (h : Handle)
  | dropAllForTask (t : Nat)

inductive Answer (Obj : Type) where
  | handle (h : Handle)
  | memoryExhausted
  | object (o : Option Obj)
  | released (o : Option Obj)
  | dropped

/-- One more than the last key; `handle wrap around` is a panic. -/
def newId (handles : Map Obj) : Option Handle :=
  match handles.maxKey? with
  | none => some 1
  | some h => if 2 ^ 64 ≤ h + 1 then none else some (h + 1)

def putIn (tables : Tables Obj) (t : Nat) (handles : Map Obj) (o : Obj) (entry : Bool) :
    Option (Answer Obj × Tables Obj) :=
  (newId handles).map fun h =>
    if entry then (.handle h, tables.insert t (handles.insert h o)) else (.memoryExhausted, tables)

/-- A task without a table gets an empty one first. -/
def put (tables : Tables Obj) (t : Nat) (o : Obj) (table entry : Bool) :
    Option (Answer Obj × Tables Obj) :=
  match tables[t]? with
  | some handles => putIn tables t handles o entry
  | none => if table then putIn (tables.insert t ∅) t ∅ o entry else some (.memoryExhausted, tables)

def get (tables : Tables Obj) (t : Nat) (h : Handle) : Option Obj := (tables[t]?).bind (·[h]?)

def release (tables : Tables Obj) (t : Nat) (h : Handle) : Option Obj × Tables Obj :=
  match tables[t]? with
  | none => (none, tables)
  | some handles => (handles[h]?, tables.insert t (handles.erase h))

def step (tables : Tables Obj) : Op Obj → Option (Answer Obj × Tables Obj)
  | .put t o table entry => put tables t o table entry
  | .get t h => some (.object (get tables t h), tables)
  | .release t h => some (.released (release tables t h).1, (release tables t h).2)
  | .dropAllForTask t => some (.dropped, tables.erase t)

/-- A successful operation that affects the handle of the task. -/
def Affects (t : Nat) (h : Handle) : Op Obj × Answer Obj → Prop
  | (.put t' _ _ _, .handle h') => t' = t ∧ h' = h
  | (.release t' h', .released (some _)) => t' = t ∧ h' = h
  | (.dropAllForTask t', _) => t' = t
  | _ => False

/-- The last such operation was a `put` of the object. -/
def LastPut (t : Nat) (h : Handle) (o : Obj) (history : List (Op Obj × Answer Obj)) : Prop :=
  ∃ before table entry after, history = before ++ (.put t o table entry, .handle h) :: after ∧
    ∀ e ∈ after, ¬ Affects t h e

def Op.task : Op Obj → Nat
  | .put t _ _ _ | .get t _ | .release t _ | .dropAllForTask t => t

/-! What the operations do to `get`. -/

variable {tables tables' : Tables Obj} {a : Answer Obj}

theorem newId_fresh {handles : Map Obj} {h : Handle} (hn : newId handles = some h) :
    h ≠ 0 ∧ handles[h]? = none := by
  rw [newId] at hn
  split at hn
  · rename_i hmax
    cases hn
    rw [Std.ExtTreeMap.maxKey?_eq_none_iff] at hmax
    subst hmax
    exact ⟨by decide, rfl⟩
  · rename_i m hmax
    split at hn
    · cases hn
    · cases hn
      refine ⟨Nat.succ_ne_zero m, get_none fun hmem => ?_⟩
      have hle := (Std.ExtTreeMap.maxKey?_eq_some_iff_mem_and_forall.mp hmax).2 _ hmem
      rw [Nat.isLE_compare] at hle
      omega

theorem get_insert_table (t t' : Nat) (handles : Map Obj) (h : Handle) :
    get (tables.insert t handles) t' h = if t = t' then handles[h]? else get tables t' h := by
  rw [get, get_insert]
  split
  · rfl
  · rfl

theorem get_erase_table (t t' : Nat) (h : Handle) :
    get (tables.erase t) t' h = if t = t' then none else get tables t' h := by
  rw [get, get_erase]
  split
  · rfl
  · rfl

/-- A `put` gives a handle that was not in use, or it fails and changes nothing. -/
inductive PutCase (tables : Tables Obj) (t : Nat) (o : Obj) : Answer Obj → Tables Obj → Prop where
  | handle {tables' : Tables Obj} (h : Handle) (h0 : h ≠ 0) (hlive : get tables t h = none)
      (hget : ∀ t' h', get tables' t' h' = if t = t' ∧ h = h' then some o else get tables t' h') :
      PutCase tables t o (.handle h) tables'
  | failed {tables' : Tables Obj} (hget : ∀ t' h', get tables' t' h' = get tables t' h') :
      PutCase tables t o .memoryExhausted tables'

theorem putIn_cases {t : Nat} {o : Obj} {entry : Bool} {tables₀ : Tables Obj} {handles : Map Obj}
    (hsame : ∀ t' h', get tables t' h' = get tables₀ t' h') (ht : ∀ h', get tables t h' = handles[h']?)
    (hp : putIn tables t handles o entry = some (a, tables')) : PutCase tables₀ t o a tables' := by
  obtain ⟨h, hn, he⟩ := Option.map_eq_some_iff.mp hp
  obtain ⟨h0, hfresh⟩ := newId_fresh hn
  cases entry with
  | false =>
    cases he
    exact .failed hsame
  | true =>
    cases he
    refine .handle h h0 (by rw [← hsame, ht, hfresh]) fun t' h' => ?_
    rw [get_insert_table, get_insert, ← hsame]
    by_cases htt : t = t'
    · subst htt
      rw [if_pos rfl, ht]
      simp only [true_and]
    · rw [if_neg htt, if_neg fun hc => htt hc.1]

theorem put_cases {t : Nat} {o : Obj} {table entry : Bool}
    (hp : put tables t o table entry = some (a, tables')) : PutCase tables t o a tables' := by
  rw [put] at hp
  split at hp
  · rename_i handles hh
    refine putIn_cases (fun _ _ => rfl) (fun h' => ?_) hp
    rw [get, hh]
    rfl
  · rename_i hnone
    split at hp
    · refine putIn_cases (fun t' h' => ?_) (fun h' => ?_) hp
      · -- an empty table more is not seen
        rw [get_insert_table]
        split
        · rename_i htt
          subst htt
          rw [get, hnone]
          rfl
        · rfl
      · rw [get_insert_table, if_pos rfl]
    · cases hp
      exact .failed fun _ _ => rfl

theorem get_release (t : Nat) (h : Handle) (t' : Nat) (h' : Handle) :
    get (release tables t h).2 t' h' = if t = t' ∧ h = h' then none else get tables t' h' := by
  rw [release]
  split
  · rename_i hnone
    split
    · rename_i hc
      obtain ⟨rfl, rfl⟩ := hc
      rw [get, hnone]
      rfl
    · rfl
  · rename_i handles hh
    rw [get_insert_table, get_erase]
    by_cases htt : t = t'
    · subst htt
      simp only [true_and, if_true]
      rw [get, hh]
      rfl
    · rw [if_neg htt, if_neg fun hc => htt hc.1]

theorem released_eq (t : Nat) (h : Handle) : (release tables t h).1 = get tables t h := by
  rw [release, get]
  split
  · rename_i hnone
    rw [hnone]
    rfl
  · rename_i handles hh
    rw [hh]
    rfl

/-- What a handle stands for after a step, from the step and what it stood for before. -/
theorem step_get {op : Op Obj} (hs : step tables op = some (a, tables')) (t : Nat) (h : Handle)
    (o : Obj) : get tables' t h = some o ↔
      (∃ table entry, (op, a) = (.put t o table entry, .handle h)) ∨
        (¬ Affects t h (op, a) ∧ get tables t h = some o) := by
  cases op with
  | put t' o' table entry =>
    rcases put_cases hs with ⟨h', h0, hlive, hget⟩ | ⟨hget⟩
    · rw [hget]
      by_cases hc : t' = t ∧ h' = h
      · rw [if_pos hc]
        obtain ⟨rfl, rfl⟩ := hc
        constructor
        · intro he
          cases he
          exact .inl ⟨table, entry, rfl⟩
        · rintro (⟨_, _, he⟩ | ⟨hn, -⟩)
          · cases he
            rfl
          · exact absurd ⟨rfl, rfl⟩ hn
      · rw [if_neg hc]
        constructor
        · exact fun hg => .inr ⟨hc, hg⟩
        · rintro (⟨_, _, he⟩ | ⟨-, hg⟩)
          · cases he
            exact absurd ⟨rfl, rfl⟩ hc
          · exact hg
    · rw [hget]
      constructor
      · exact fun hg => .inr ⟨id, hg⟩
      · rintro (⟨_, _, he⟩ | ⟨-, hg⟩)
        · cases he
        · exact hg
  | get t' h' =>
    cases hs
    constructor
    · exact fun hg => .inr ⟨id, hg⟩
    · rintro (⟨_, _, he⟩ | ⟨-, hg⟩)
      · cases he
      · exact hg
  | release t' h' =>
    cases hs
    rw [get_release, released_eq]
    by_cases hc : t' = t ∧ h' = h
    · rw [if_pos hc]
      obtain ⟨rfl, rfl⟩ := hc
      constructor
      · exact nofun
      · rintro (⟨_, _, he⟩ | ⟨hn, hg⟩)
        · cases he
        · rw [hg] at hn
          exact absurd ⟨rfl, rfl⟩ hn
    · rw [if_neg hc]
      constructor
      · intro hg
        refine .inr ⟨fun ha => ?_, hg⟩
        cases hx : get tables t' h' with
        | none =>
          rw [hx] at ha
          exact ha
        | some x =>
          rw [hx] at ha
          exact hc ha
      · rintro (⟨_, _, he⟩ | ⟨-, hg⟩)
        · cases he
        · exact hg
  | dropAllForTask t' =>
    cases hs
    rw [get_erase_table]
    by_cases hc : t' = t
    · rw [if_pos hc]
      constructor
      · exact nofun
      · rintro (⟨_, _, he⟩ | ⟨hn, -⟩)
        · cases he
        · exact absurd hc hn
    · rw [if_neg hc]
      constructor
      · exact fun hg => .inr ⟨hc, hg⟩
      · rintro (⟨_, _, he⟩ | ⟨-, hg⟩)
        · cases he
        · exact hg

/-- No operation on the handles of a task is seen by another one. -/
theorem step_other {op : Op Obj} (hs : step tables op = some (a, tables')) {t : Nat}
    (ht : t ≠ op.task) (h : Handle) : get tables' t h = get tables t h := by
  cases op with
  | put t' o table entry =>
    rcases put_cases hs with ⟨h', h0, hlive, hget⟩ | ⟨hget⟩
    · rw [hget, if_neg]
      exact fun hc => ht hc.1.symm
    · exact hget t h
  | get t' h' =>
    cases hs
    rfl
  | release t' h' =>
    cases hs
    rw [get_release, if_neg]
    exact fun hc => ht hc.1.symm
  | dropAllForTask t' =>
    cases hs
    rw [get_erase_table, if_neg]
    exact fun hc => ht hc.symm

theorem lastPut_append {t : Nat} {h : Handle} {o : Obj} {history : List (Op Obj × Answer Obj)}
    {e : Op Obj × Answer Obj} : LastPut t h o (history ++ [e]) ↔
      (∃ table entry, e = (.put t o table entry, .handle h)) ∨
        (¬ Affects t h e ∧ LastPut t h o history) := by
  constructor
  · rintro ⟨before, table, entry, after, hhist, hafter⟩
    rcases List.eq_nil_or_concat after with rfl | ⟨after, e', rfl⟩
    · obtain ⟨-, he⟩ := List.append_inj' hhist rfl
      cases he
      exact .inl ⟨table, entry, rfl⟩
    · rw [List.concat_eq_append, ← List.cons_append, ← List.append_assoc] at hhist
      rw [List.concat_eq_append] at hafter
      obtain ⟨hbefore, he⟩ := List.append_inj' hhist rfl
      cases he
      refine .inr ⟨hafter e (by simp), before, table, entry, after, hbefore, fun x hx => ?_⟩
      exact hafter x (List.mem_append_left _ hx)
  · rintro (⟨table, entry, rfl⟩ | ⟨he, before, table, entry, after, rfl, hafter⟩)
    · exact ⟨history, table, entry, [], rfl, fun x hx => absurd hx List.not_mem_nil⟩
    · refine ⟨before, table, entry, after ++ [e], by simp, fun x hx => ?_⟩
      rcases List.mem_append.mp hx with hx | hx
      · exact hafter x hx
      · rw [List.mem_singleton.mp hx]
        exact he

/-- A step that is noted. -/
def noted (s : Tables Obj × List (Op Obj × Answer Obj)) (op : Op Obj) :
    Option (Tables Obj × List (Op Obj × Answer Obj)) :=
  (step s.1 op).map fun (a, tables) => (tables, s.2 ++ [(op, a)])

/-- In every state that is reached, handles stand for what was last put there;
a `put` gives a new handle or changes nothing, and tasks do not see each other. -/
theorem handles_keep (ops : List (Op Obj)) (history : List (Op Obj × Answer Obj))
    (tables : Tables Obj) (hr : run noted (∅, []) ops = some (tables, history)) :
    (∀ t h o, get tables t h = some o ↔ LastPut t h o history) ∧
      (∀ t o table entry a tables', step tables (.put t o table entry) = some (a, tables') →
        (∀ h, a = .handle h → h ≠ 0 ∧ get tables t h = none) ∧
          ((∀ h, a ≠ .handle h) → ∀ t' h', get tables' t' h' = get tables t' h')) ∧
      ∀ op a tables', step tables op = some (a, tables') →
        ∀ t, t ≠ op.task → ∀ h, get tables' t h = get tables t h := by
  refine ⟨?_, fun t o table entry a tables' hs => ?_, fun op a tables' hs t ht h =>
    step_other hs ht h⟩
  · refine Run.invariant (I := fun s => ∀ t h o, get s.1 t h = some o ↔ LastPut t h o s.2)
      (fun s op s' hi hn t h o => ?_) (fun t h o => ⟨fun hg => ?_, ?_⟩) hr
    · obtain ⟨⟨a, tables'⟩, hs, rfl⟩ := Option.map_eq_some_iff.mp hn
      rw [step_get hs, lastPut_append, hi]
    · rw [get, get_none Std.ExtTreeMap.not_mem_empty] at hg
      cases hg
    · rintro ⟨before, table, entry, after, hhist, -⟩
      simp at hhist
  · rcases put_cases hs with ⟨h', h0, hlive, hget⟩ | ⟨hget⟩
    · refine ⟨fun h he => ?_, fun hn => absurd rfl (hn h')⟩
      cases he
      exact ⟨h0, hlive⟩
    · exact ⟨nofun, fun _ => hget⟩

/-- Task 1 releases the first of its handles, task 2 goes, and neither a new table nor
a new entry gets its memory. -/
def releasedTasks : List (Op Nat) :=
  [.put 1 10 true true, .put 2 20 true true, .put 1 11 true true, .put 3 30 false true,
    .put 1 12 true false, .release 1 1, .dropAllForTask 2]

theorem handles_keep_released :
    ∃ tables history, run noted (∅, []) releasedTasks = some (tables, history) ∧
      get tables 1 1 = none ∧ get tables 1 2 = some 11 ∧ LastPut 1 2 11 history ∧
      (∀ o, ¬ LastPut 1 1 o history) ∧ ∀ a tables', step tables (.put 1 13 true false) = some (a, tables') →
        (∀ h, a ≠ .handle h) → ∀ t h, get tables' t h = get tables t h := by
  have hrun : ∃ tables history, run noted (∅, []) releasedTasks = some (tables, history) ∧
      get tables 1 1 = none ∧ get tables 1 2 = some 11 := by
    have hle : (compare (1 : Nat) 2).isLE = true := by decide
    simp [hle, releasedTasks, run, noted, step, put, putIn, release, newId, get, Std.ExtTreeMap.getElem_insert,
      Std.ExtTreeMap.maxKey?_insert]
  obtain ⟨tables, history, hr, hnone, hsome⟩ := hrun
  obtain ⟨hlast, hput, -⟩ := handles_keep releasedTasks history tables hr
  refine ⟨tables, history, hr, hnone, hsome, (hlast 1 2 11).mp hsome, ?_, ?_⟩
  · intro o ho
    rw [(hlast 1 1 o).mpr ho] at hnone
    cases hnone
  · intro a tables' hs
    exact (hput 1 13 true false a tables' hs).2

end Crabos.Object
