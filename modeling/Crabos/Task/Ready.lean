import Crabos.Btree.Ordered
import Crabos.Task.Tables

/-!
# The search for a task over the B-tree (`find_next_work_item`)

The table of the tasks is a B-tree map. The search walks one range of it from
the previous task upwards, leaves out that task, and chains the range from the
least task up to the previous one. Neither range is read further than it has
to be.
-/
namespace Crabos.TaskTables

open Crabos.BTree Crabos.Deque Crabos.Maps Crabos.Run
open Crabos.Task (TaskId TaskState)

variable {Fs Fut : Type}

/-- The body of the loop; `rest` is what `continue` goes on with. -/
def visit (s : Statics Fs Fut) (id : TaskId) (rest : Option (Except Panic (TaskId × WorkItem Fut))) :
    Option (Except Panic (TaskId × WorkItem Fut)) :=
  match s.states[id]? with
  | none => some (.error .idNotInStates)
  | some .sleep => rest
  | some (.user frame) => some (.ok (id, .user frame))
  | some _ =>
    match s.futures[id]? with
    | none => some (.error .idNotInFutures)
    | some future => some (.ok (id, .kernel future))

/-- The loop over the chained ranges, one pull at a time; the chain forgets its
first half when that is exhausted. `none` is an access out of bounds in the
tree, or a search that is not over yet. -/
def scan (s : Statics Fs Fut) {h : Nat} (root : Node TaskId (Task Fs) h) (prev : TaskId) :
    Nat → Option Range → Range → Option (Except Panic (TaskId × WorkItem Fut))
  | 0, _, _ => none
  | pulls + 1, some ahead, upTo => (ahead.next root).bind fun
    | (none, _) => scan s root prev pulls none upTo
    | (some kv, ahead') =>
      if kv.1 = prev then scan s root prev pulls (some ahead') upTo
      else visit s kv.1 (scan s root prev pulls (some ahead') upTo)
  | pulls + 1, none, upTo => (upTo.next root).bind fun
    | (none, _) => some (.error .noTaskReady)
    | (some kv, upTo') => visit s kv.1 (scan s root prev pulls none upTo')

/-- `find_next_work_item` with the table of the tasks as it is in memory. -/
def findReady (s : Statics Fs Fut) (tasks : BTreeMap TaskId (Task Fs)) (prev : Option TaskId)
    (pulls : Nat) : Option (Except Panic (TaskId × WorkItem Fut)) :=
  (tasks.range (.included (prev.getD 0)) .unbounded).bind fun ahead =>
    (tasks.range .unbounded (.included (prev.getD 0))).bind fun upTo =>
      scan s tasks.asRef.2 (prev.getD 0) pulls (some ahead) upTo

theorem visit_findAmong (s : Statics Fs Fut) (id : TaskId) (ids : List TaskId) :
    visit s id (some (findAmong s ids)) = some (findAmong s (id :: ids)) := by
  rw [visit, findAmong]
  cases hst : s.states[id]? with
  | none => rfl
  | some st =>
    cases st with
    | sleep => rfl
    | user frame => rfl
    | syscallEntry frame => cases s.futures[id]? <;> rfl
    | wake => cases s.futures[id]? <;> rfl

section Tree

variable {h : Nat} {root : Node TaskId (Task Fs) h} {s : Statics Fs Fut} {prev : TaskId}

/-- The second half of the chain. -/
theorem scan_upTo (hn : Sized root) {upTo : Range} {l : List (TaskId × Task Fs)}
    (hs : Spans root upTo l) {pulls : Nat} (hp : l.length < pulls) :
    scan s root prev pulls none upTo = some (findAmong s (l.map Prod.fst)) := by
  induction l generalizing upTo pulls with
  | nil =>
    cases pulls with
    | zero => cases hp
    | succ pulls =>
      obtain ⟨r', hcall, -⟩ := hs.call hn .front
      rw [Range.call] at hcall
      rw [scan, hcall]
      rfl
  | cons kv l ih =>
    cases pulls with
    | zero => cases hp
    | succ pulls =>
      obtain ⟨r', hcall, hs'⟩ := hs.call hn .front
      rw [Range.call] at hcall
      rw [scan, hcall, List.map_cons, ← visit_findAmong, ← ih hs' (by simpa using hp)]
      rfl

/-- The first half, without the previous task, and then the second. -/
theorem scan_ahead (hn : Sized root) {ahead upTo : Range} {l l' : List (TaskId × Task Fs)}
    (hs : Spans root ahead l) (hs' : Spans root upTo l') {pulls : Nat}
    (hp : l.length + l'.length + 1 < pulls) :
    scan s root prev pulls (some ahead) upTo =
      some (findAmong s ((l.map Prod.fst).filter (fun id => id ≠ prev) ++ l'.map Prod.fst)) := by
  induction l generalizing ahead pulls with
  | nil =>
    cases pulls with
    | zero => cases hp
    | succ pulls =>
      obtain ⟨r', hcall, -⟩ := hs.call hn .front
      rw [Range.call] at hcall
      rw [scan, hcall]
      exact scan_upTo hn hs' (by simpa using hp)
  | cons kv l ih =>
    cases pulls with
    | zero => cases hp
    | succ pulls =>
      obtain ⟨r', hcall, hs₁⟩ := hs.call hn .front
      rw [Range.call] at hcall
      have hless : l.length + l'.length + 1 < pulls := by
        simp only [List.length_cons] at hp
        omega
      have hrest := ih hs₁ hless
      simp only [pull_front] at hrest hcall
      simp only [scan, hcall, Option.bind_some]
      by_cases hk : kv.1 = prev
      · simp [hk, hrest]
      · simp [hk, hrest, visit_findAmong]

end Tree

/-- The keys of the table are those of the tree, in the same order. -/
theorem keys_eq {t : Map (Task Fs)} {l : List (TaskId × Task Fs)} (hl : Lists (fun id => t[id]?) l) :
    t.keys = l.map Prod.fst := by
  have hkeys : t.keys.Pairwise (· < ·) :=
    Std.ExtTreeMap.ordered_keys.imp fun h => Nat.compare_eq_lt.mp h
  have hpairs : (l.map Prod.fst).Pairwise (· < ·) := List.pairwise_map.mpr hl.sorted
  refine List.Perm.eq_of_pairwise (fun a b _ _ hab hba => absurd hab (Nat.lt_asymm hba)) hkeys hpairs ?_
  refine (List.perm_ext_iff_of_nodup (hkeys.imp Nat.ne_of_lt) (hpairs.imp Nat.ne_of_lt)).mpr fun id => ?_
  rw [Std.ExtTreeMap.mem_keys, mem_iff]
  simp [hl.mem]

/-- The search over the tree picks the task that the search over the table
picks, for every tree that insertions and removals can build. -/
theorem find_ready_refines (ops : List (Op TaskId (Task Fs))) (m : BTreeMap TaskId (Task Fs))
    (hr : run BTree.step BTreeMap.new ops = some m) (s : Statics Fs Fut)
    (hs : Lists (fun id => s.tasks[id]?) m.pairs) (prev : Option TaskId) (pulls : Nat)
    (hp : 2 * m.pairs.length + 1 < pulls) :
    findReady s m prev pulls = some (findNextWorkItem s prev) := by
  have hm : Good m := invariant step_good new_good hr
  have hup : crossed (.included (prev.getD 0)) .unbounded = false := rfl
  have hdown : crossed .unbounded (.included (prev.getD 0)) = false := rfl
  obtain ⟨ahead, hahead, hspan⟩ := range_spec hm hup
  obtain ⟨upTo, hupTo, hspan'⟩ := range_spec hm hdown
  have h₁ := List.length_filter_le
    (fun a : TaskId × Task Fs => contains (.included (prev.getD 0)) .unbounded a.1) m.pairs
  have h₂ := List.length_filter_le
    (fun a : TaskId × Task Fs => contains .unbounded (.included (prev.getD 0)) a.1) m.pairs
  rw [findReady, hahead, Option.bind_some, hupTo, Option.bind_some,
    scan_ahead hm.sized hspan hspan' (by omega), findNextWorkItem, nextTasks, keys_eq hs]
  congr 3
  · rw [List.filter_map, List.filter_map, List.filter_filter]
    congr 2
    funext a
    simp [contains, Bool.and_comm]
  · rw [List.filter_map]
    congr 2

def plainTask (id : TaskId) : Task Unit := ⟨id, 0, none⟩

/-- Of three tasks the second and the third are ready. -/
def threeTasks : Statics Unit Unit :=
  ⟨(((∅ : Map (Task Unit)).insert 1 (plainTask 1)).insert 2 (plainTask 2)).insert 3 (plainTask 3),
    (((∅ : Map TaskState).insert 1 .sleep).insert 2 .wake).insert 3 .wake,
    (∅ : Map Unit).insert 1 (), some 2, 3⟩

theorem threeTasks_lists :
    Lists (fun id => threeTasks.tasks[id]?) [(1, plainTask 1), (2, plainTask 2), (3, plainTask 3)] := by
  refine ⟨by simp [Sorted], fun k v => ?_⟩
  rw [threeTasks, get_insert, get_insert, get_insert]
  by_cases h₁ : k = 1
  · simp [h₁, eq_comm]
  · by_cases h₂ : k = 2
    · simp [h₂, eq_comm]
    · by_cases h₃ : k = 3
      · simp [h₃, eq_comm]
      · simp [h₁, h₂, h₃, Ne.symm h₁, Ne.symm h₂, Ne.symm h₃]

def threeInsertions : List (Op TaskId (Task Unit)) :=
  [.insert 3 (plainTask 3) plenty, .insert 1 (plainTask 1) plenty, .insert 2 (plainTask 2) plenty]

/-- The search goes on behind the second task. -/
theorem find_ready_refines_three :
    ∃ m, run BTree.step BTreeMap.new threeInsertions = some m ∧
      findReady threeTasks m (some 2) 8 = some (findNextWorkItem threeTasks (some 2)) :=
  ⟨_, rfl, find_ready_refines threeInsertions _ rfl threeTasks threeTasks_lists (some 2) 8 (by decide)⟩

end Crabos.TaskTables
