import Crabos.Lib.Linked
import Crabos.Lib.Run

/-!
# The lock-free list (`kernel/src/util/atomic_list.rs`)

Any number of `push_front` and `take_iter` calls, interleaved at their accesses
to the head and to the links. The allocator gives out any address that is not
in use, in particular one that a push has loaded as the head and that was
consumed since; what stands in free memory is arbitrary. A push only ever
compares the head it has loaded, and links its node to that same value, so a
head that has come back does no harm.
-/
namespace Crabos.AtomicList

open Crabos.Linked Crabos.Run

/-- A node; `item` is the `push_front` call whose item it holds. -/
structure Item (ι : Type) where
  next : Option Nat
  item : ι

/-- A `push_front` call: before `Box::new`, at the top of the loop with its
node, after the load of the head, after the store of the link, and returned. -/
inductive Push where
  | idle
  | top (node : Nat)
  | loaded (node : Nat) (head : Option Nat)
  | stored (node : Nat) (head : Option Nat)
  | ok
  | exhausted
  deriving DecidableEq, Repr

def Push.node : Push → Option Nat
  | .top a | .loaded a _ | .stored a _ => some a
  | _ => none

/-- Who owns the memory at an address. -/
inductive Place (ι κ : Type) where
  | free
  | pusher (i : ι)
  | list
  | iter (k : κ)

/-- `iter` is the head of an `AtomicListIter` once its `take_iter` has swapped
the head, and `yielded` what it has yielded. The calls are noted in the order
of their successful `compare_and_swap` and of their `swap`. -/
structure State (ι κ : Type) where
  head : Option Nat
  mem : Nat → Item ι
  place : Nat → Place ι κ
  push : ι → Push
  iter : κ → Option (Option Nat)
  yielded : κ → List ι
  pushes : List ι
  takes : List κ

inductive Act (ι κ : Type) where
  | boxNew (i : ι) (a : Option Nat)
  | load (i : ι)
  | store (i : ι)
  | compareAndSwap (i : ι)
  | takeIter (k : κ)
  | next (k : κ)
  | reuse (a : Nat) (x : Item ι)

variable {ι κ : Type}

def Place.isFree : Place ι κ → Bool
  | .free => true
  | _ => false

section steps

variable [DecidableEq ι] [DecidableEq κ]

def State.setPush (s : State ι κ) (i : ι) (p : Push) : State ι κ :=
  { s with push := Function.update s.push i p }

/-- All of the list belongs to the iterator. -/
def Place.taken (k : κ) : Place ι κ → Place ι κ
  | .list => .iter k
  | p => p

def step (s : State ι κ) : Act ι κ → Option (State ι κ)
  | .boxNew i none => if s.push i = .idle then some (s.setPush i .exhausted) else none
  | .boxNew i (some a) =>
    if s.push i = .idle ∧ (s.place a).isFree then
      some (State.setPush { s with
        mem := Function.update s.mem a ⟨none, i⟩
        place := Function.update s.place a (.pusher i) } i (.top a))
    else none
  | .load i =>
    match s.push i with
    | .top a => some (s.setPush i (.loaded a s.head))
    | _ => none
  | .store i =>
    match s.push i with
    | .loaded a h => some (State.setPush { s with
        mem := Function.update s.mem a { s.mem a with next := h } } i (.stored a h))
    | _ => none
  | .compareAndSwap i =>
    match s.push i with
    | .stored a h =>
      if s.head = h then
        some (State.setPush { s with
          head := some a
          place := Function.update s.place a .list
          pushes := s.pushes ++ [i] } i .ok)
      else some (s.setPush i (.top a))
    | _ => none
  | .takeIter k =>
    match s.iter k with
    | none =>
      some { s with
        head := none
        place := fun a => (s.place a).taken k
        iter := Function.update s.iter k (some s.head)
        takes := s.takes ++ [k] }
    | some _ => none
  | .next k =>
    match s.iter k with
    | none => none
    | some none => some s
    | some (some a) =>
      some { s with
        place := Function.update s.place a .free
        iter := Function.update s.iter k (some (s.mem a).next)
        yielded := Function.update s.yielded k (s.yielded k ++ [(s.mem a).item]) }
  | .reuse a x =>
    if (s.place a).isFree then some { s with mem := Function.update s.mem a x } else none

end steps

def initial (ι κ : Type) (mem : Nat → Item ι) : State ι κ where
  head := none
  mem := mem
  place := fun _ => .free
  push := fun _ => .idle
  iter := fun _ => none
  yielded := fun _ => []
  pushes := []
  takes := []

def links (mem : Nat → Item ι) (a : Nat) : Option Nat := (mem a).next

def items (mem : Nat → Item ι) (l : List Nat) : List ι := l.map fun a => (mem a).item

/-- Following the links from `p` gives these items. -/
def Items (mem : Nat → Item ι) (p : Option Nat) (is : List ι) : Prop :=
  ∃ l, Chain (links mem) p l ∧ items mem l = is

/-- The addresses of the list and of what is left of each iterator. -/
structure Shape (s : State ι κ) (l : List Nat) (d : κ → List Nat) : Prop where
  list : Chain (links s.mem) s.head l
  inList : ∀ a ∈ l, s.place a = .list
  iter : ∀ k p, s.iter k = some p → Chain (links s.mem) p (d k)
  inIter : ∀ k, ∀ a ∈ d k, s.place a = .iter k

/-- All pushes, split at the takes. -/
def segments (s : State ι κ) (l : List Nat) (d : κ → List Nat) : List ι :=
  (s.takes.map fun k => (s.yielded k ++ items s.mem (d k)).reverse).flatten ++
    (items s.mem l).reverse

structure Inv (s : State ι κ) (l : List Nat) (d : κ → List Nat) : Prop where
  shape : Shape s l d
  idle : ∀ k, s.iter k = none → d k = [] ∧ s.yielded k = []
  node : ∀ i a, (s.push i).node = some a → s.place a = .pusher i ∧ (s.mem a).item = i
  link : ∀ i a h, s.push i = .stored a h → (s.mem a).next = h
  split : s.pushes = segments s l d
  done : ∀ i, s.push i = .ok ↔ i ∈ s.pushes
  once : s.pushes.Nodup
  takes : s.takes.Nodup
  taken : ∀ k, k ∈ s.takes ↔ s.iter k ≠ none

variable {s s' : State ι κ} {l : List Nat} {d : κ → List Nat}

theorem initial_inv (mem : Nat → Item ι) : Inv (initial ι κ mem) [] (fun _ => []) where
  shape := ⟨rfl, fun _ h => absurd h List.not_mem_nil, fun _ _ h => (by cases h),
    fun _ _ h => absurd h List.not_mem_nil⟩
  idle _ _ := ⟨rfl, rfl⟩
  node _ _ h := by cases h
  link _ _ _ h := by cases h
  split := rfl
  done i := ⟨fun h => (by cases h), fun h => absurd h List.not_mem_nil⟩
  once := List.nodup_nil
  takes := List.nodup_nil
  taken k := ⟨fun h => absurd h List.not_mem_nil, fun h => absurd rfl h⟩

/-! Memory that is neither in the list nor in an iterator. -/

section memory

variable {mem : Nat → Item ι} {a : Nat} {x : Item ι}

theorem links_update {b : Nat} (h : b ≠ a) : links (Function.update mem a x) b = links mem b := by
  rw [links, links, Function.update_of_ne h]

theorem items_update (h : a ∉ l) : items (Function.update mem a x) l = items mem l := by
  refine List.map_congr_left fun b hb => ?_
  rw [Function.update_of_ne]
  rintro rfl
  exact h hb

theorem chain_update {p : Option Nat} (h : a ∉ l) (hc : Chain (links mem) p l) :
    Chain (links (Function.update mem a x)) p l := by
  refine chain_congr (fun b hb => links_update ?_) hc
  rintro rfl
  exact h hb

end memory

/-- The address is not in use by the list or by an iterator. -/
def Apart (s : State ι κ) (a : Nat) : Prop := s.place a ≠ .list ∧ ∀ k, s.place a ≠ .iter k

theorem place_eq_free {p : Place ι κ} (h : p.isFree = true) : p = .free := by
  cases p with
  | free => rfl
  | pusher i => cases h
  | list => cases h
  | iter k => cases h

variable {a : Nat}

theorem apart_of_free (h : s.place a = .free) : Apart s a := by
  rw [Apart, h]
  exact ⟨nofun, nofun⟩

theorem apart_of_pusher {i : ι} (h : s.place a = .pusher i) : Apart s a := by
  rw [Apart, h]
  exact ⟨nofun, nofun⟩

theorem Apart.off (hp : Apart s a) (hs : Shape s l d) : a ∉ l ∧ ∀ k, a ∉ d k :=
  ⟨fun h => hp.1 (hs.inList a h), fun k h => hp.2 k (hs.inIter k a h)⟩

/-- Memory that the list and the iterators do not use is written, and it may
change its owner, but not to one of them. -/
theorem Shape.write (hs : Shape s l d) (ha : Apart s a) {x : Item ι} {place : Nat → Place ι κ}
    (hplace : ∀ b, b ≠ a → place b = s.place b) :
    Shape { s with mem := Function.update s.mem a x, place := place } l d := by
  obtain ⟨hl, hd⟩ := ha.off hs
  refine ⟨chain_update hl hs.list, fun b hb => ?_, fun k p hk => chain_update (hd k) (hs.iter k p hk),
    fun k b hb => ?_⟩
  · refine (hplace b ?_).trans (hs.inList b hb)
    rintro rfl
    exact hl hb
  · refine (hplace b ?_).trans (hs.inIter k b hb)
    rintro rfl
    exact hd k hb

theorem segments_write (hl : a ∉ l) (hd : ∀ k, a ∉ d k) (x : Item ι) (place : Nat → Place ι κ) :
    segments { s with mem := Function.update s.mem a x, place := place } l d = segments s l d := by
  simp only [segments, items_update hl, items_update (hd _)]

theorem Inv.pushed (hi : Inv s l d) {i : ι} (h : s.push i ≠ .ok) : i ∉ s.pushes :=
  fun hx => h ((hi.done i).mpr hx)

section steps

variable [DecidableEq ι]

/-- A push goes on without success or failure. -/
theorem Inv.setPush (hi : Inv s l d) {i : ι} {p : Push} (hok : p ≠ .ok) (hold : s.push i ≠ .ok)
    (hnode : ∀ a, p.node = some a → s.place a = .pusher i ∧ (s.mem a).item = i)
    (hlink : ∀ a h, p = .stored a h → (s.mem a).next = h) : Inv (s.setPush i p) l d where
  shape := ⟨hi.shape.list, hi.shape.inList, hi.shape.iter, hi.shape.inIter⟩
  idle := hi.idle
  node j b hj := by
    change (Function.update s.push i p j).node = some b at hj
    by_cases hij : j = i
    · subst hij
      rw [Function.update_self] at hj
      exact hnode b hj
    · rw [Function.update_of_ne hij] at hj
      exact hi.node j b hj
  link j b h hj := by
    change Function.update s.push i p j = .stored b h at hj
    by_cases hij : j = i
    · subst hij
      rw [Function.update_self] at hj
      exact hlink b h hj
    · rw [Function.update_of_ne hij] at hj
      exact hi.link j b h hj
  split := hi.split
  done j := by
    change Function.update s.push i p j = .ok ↔ j ∈ s.pushes
    by_cases hij : j = i
    · subst hij
      rw [Function.update_self]
      exact ⟨fun h => absurd h hok, fun h => absurd h (hi.pushed hold)⟩
    · rw [Function.update_of_ne hij]
      exact hi.done j
  once := hi.once
  takes := hi.takes
  taken := hi.taken

variable [DecidableEq κ]

theorem inv_boxNew (hi : Inv s l d) {i : ι} {a : Option Nat} (h : step s (.boxNew i a) = some s') :
    Inv s' l d := by
  cases a with
  | none =>
    rw [step] at h
    split at h
    · rename_i hidle
      cases h
      exact hi.setPush nofun (hidle ▸ nofun) nofun nofun
    · cases h
  | some a =>
    rw [step] at h
    split at h
    · rename_i hc
      obtain ⟨hidle, hfree⟩ := hc
      have hfree := place_eq_free hfree
      have ha := apart_of_free hfree
      obtain ⟨hl, hd⟩ := ha.off hi.shape
      cases h
      have hne : ∀ j b, (s.push j).node = some b → b ≠ a := by
        rintro j b hj rfl
        have hp := (hi.node j b hj).1
        rw [hfree] at hp
        cases hp
      have h₁ : Inv { s with
          mem := Function.update s.mem a ⟨none, i⟩
          place := Function.update s.place a (.pusher i) } l d :=
        { shape := hi.shape.write ha fun b hb => Function.update_of_ne hb _ _
          idle := hi.idle
          node := fun j b hj => by
            have hb := hne j b hj
            simp only [Function.update_of_ne hb]
            exact hi.node j b hj
          link := fun j b h hj => by
            have hb := hne j b (by rw [hj]; rfl)
            simp only [Function.update_of_ne hb]
            exact hi.link j b h hj
          split := hi.split.trans (segments_write hl hd _ _).symm
          done := hi.done
          once := hi.once
          takes := hi.takes
          taken := hi.taken }
      refine h₁.setPush nofun (hidle ▸ nofun) (fun b hb => ?_) nofun
      cases hb
      exact ⟨Function.update_self _ _ _, by simp only [Function.update_self]⟩
    · cases h

theorem inv_load (hi : Inv s l d) {i : ι} (h : step s (.load i) = some s') : Inv s' l d := by
  rw [step] at h
  split at h
  · rename_i a hp
    cases h
    refine hi.setPush nofun (hp ▸ nofun) (fun b hb => ?_) nofun
    cases hb
    exact hi.node i a (by rw [hp]; rfl)
  · cases h

theorem inv_store (hi : Inv s l d) {i : ι} (h : step s (.store i) = some s') : Inv s' l d := by
  rw [step] at h
  split at h
  · rename_i a head hp
    cases h
    obtain ⟨hplace, hitem⟩ := hi.node i a (by rw [hp]; rfl)
    have ha := apart_of_pusher hplace
    obtain ⟨hl, hd⟩ := ha.off hi.shape
    have h₁ : Inv { s with mem := Function.update s.mem a { s.mem a with next := head } } l d :=
      { shape := hi.shape.write ha fun _ _ => rfl
        idle := hi.idle
        node := fun j b hj => by
          obtain ⟨hpb, hib⟩ := hi.node j b hj
          refine ⟨hpb, ?_⟩
          by_cases hb : b = a
          · subst hb
            simp only [Function.update_self]
            exact hib
          · simp only [Function.update_of_ne hb]
            exact hib
        link := fun j b h hj => by
          have hb : b ≠ a := by
            rintro rfl
            have hpb := (hi.node j b (by rw [hj]; rfl)).1
            rw [hplace] at hpb
            cases hpb
            rw [hp] at hj
            cases hj
          simp only [Function.update_of_ne hb]
          exact hi.link j b h hj
        split := hi.split.trans (segments_write hl hd _ _).symm
        done := hi.done
        once := hi.once
        takes := hi.takes
        taken := hi.taken }
    refine h₁.setPush nofun (hp ▸ nofun) (fun b hb => ?_) (fun b h hb => ?_)
    · cases hb
      refine ⟨hplace, ?_⟩
      simp only [Function.update_self]
      exact hitem
    · cases hb
      simp only [Function.update_self]
  · cases h

theorem inv_compareAndSwap (hi : Inv s l d) {i : ι} (h : step s (.compareAndSwap i) = some s') :
    ∃ l', Inv s' l' d := by
  rw [step] at h
  split at h
  · rename_i a head hp
    obtain ⟨hplace, hitem⟩ := hi.node i a (by rw [hp]; rfl)
    have hlink := hi.link i a head hp
    split at h
    · rename_i hhead
      cases h
      have hnew := hi.pushed (i := i) (hp ▸ nofun)
      have hne : ∀ b, s.place b ≠ .pusher i → b ≠ a := by
        rintro b hb rfl
        exact hb hplace
      refine ⟨a :: l, ?_, hi.idle, fun j b hj => ?_, fun j b h hj => ?_, ?_, fun j => ?_, ?_, hi.takes,
        hi.taken⟩
      · -- the link of the node is the head that was loaded, and that is the head now
        refine ⟨⟨rfl, ?_⟩, fun b hb => ?_, hi.shape.iter, fun k b hb => ?_⟩
        · change Chain (links s.mem) (s.mem a).next l
          rw [hlink, ← hhead]
          exact hi.shape.list
        · rcases List.mem_cons.mp hb with rfl | hb
          · exact Function.update_self _ _ _
          · have hl := hi.shape.inList b hb
            exact (Function.update_of_ne (hne b (hl ▸ nofun)) _ _).trans hl
        · have hk := hi.shape.inIter k b hb
          exact (Function.update_of_ne (hne b (hk ▸ nofun)) _ _).trans hk
      · change (Function.update s.push i .ok j).node = some b at hj
        by_cases hij : j = i
        · subst hij
          rw [Function.update_self] at hj
          cases hj
        · rw [Function.update_of_ne hij] at hj
          obtain ⟨hpb, hib⟩ := hi.node j b hj
          refine ⟨(Function.update_of_ne (hne b ?_) _ _).trans hpb, hib⟩
          rw [hpb]
          intro he
          exact hij (Place.pusher.inj he)
      · change Function.update s.push i .ok j = .stored b h at hj
        by_cases hij : j = i
        · subst hij
          rw [Function.update_self] at hj
          cases hj
        · rw [Function.update_of_ne hij] at hj
          exact hi.link j b h hj
      · change s.pushes ++ [i] = _ ++ (items s.mem (a :: l)).reverse
        rw [items, List.map_cons, List.reverse_cons, hitem, ← List.append_assoc]
        exact congrArg (· ++ [i]) hi.split
      · change Function.update s.push i .ok j = .ok ↔ j ∈ s.pushes ++ [i]
        rw [List.mem_append, List.mem_singleton]
        by_cases hij : j = i
        · subst hij
          rw [Function.update_self]
          exact ⟨fun _ => .inr rfl, fun _ => rfl⟩
        · rw [Function.update_of_ne hij, hi.done j]
          exact ⟨.inl, fun h => h.resolve_right hij⟩
      · refine List.nodup_append.mpr ⟨hi.once, List.nodup_singleton i, ?_⟩
        rintro x hx y hy rfl
        rw [List.mem_singleton.mp hy] at hx
        exact hnew hx
    · cases h
      refine ⟨l, hi.setPush nofun (hp ▸ nofun) (fun b hb => ?_) nofun⟩
      cases hb
      exact ⟨hplace, hitem⟩
  · cases h

theorem inv_takeIter (hi : Inv s l d) {k : κ} (h : step s (.takeIter k) = some s') :
    ∃ d', Inv s' [] d' := by
  rw [step] at h
  split at h
  · rename_i hk
    cases h
    obtain ⟨hdk, hyk⟩ := hi.idle k hk
    have hnew : k ∉ s.takes := fun hx => (hi.taken k).mp hx hk
    refine ⟨Function.update d k l, ?_, fun j hj => ?_, fun i a ha => ?_, hi.link, ?_, hi.done, hi.once,
      ?_, fun j => ?_⟩
    · refine ⟨rfl, fun _ h => absurd h List.not_mem_nil, fun j p hj => ?_, fun j a ha => ?_⟩
      · change Function.update s.iter k (some s.head) j = some p at hj
        by_cases hjk : j = k
        · subst hjk
          rw [Function.update_self] at hj ⊢
          cases hj
          exact hi.shape.list
        · rw [Function.update_of_ne hjk] at hj ⊢
          exact hi.shape.iter j p hj
      · change (s.place a).taken k = .iter j
        by_cases hjk : j = k
        · subst hjk
          rw [Function.update_self] at ha
          rw [hi.shape.inList a ha]
          rfl
        · rw [Function.update_of_ne hjk] at ha
          rw [hi.shape.inIter j a ha]
          rfl
    · change Function.update s.iter k (some s.head) j = none at hj
      by_cases hjk : j = k
      · subst hjk
        rw [Function.update_self] at hj
        cases hj
      · rw [Function.update_of_ne hjk] at hj ⊢
        exact hi.idle j hj
    · obtain ⟨hp, hitem⟩ := hi.node i a ha
      refine ⟨?_, hitem⟩
      change (s.place a).taken k = .pusher i
      rw [hp]
      rfl
    · -- the list becomes the last segment that was taken
      have hsegs : (s.takes.map fun j => (s.yielded j ++ items s.mem (Function.update d k l j)).reverse) =
          s.takes.map fun j => (s.yielded j ++ items s.mem (d j)).reverse := by
        refine List.map_congr_left fun j hj => ?_
        rw [Function.update_of_ne]
        rintro rfl
        exact hnew hj
      change s.pushes = ((s.takes ++ [k]).map fun j =>
        (s.yielded j ++ items s.mem (Function.update d k l j)).reverse).flatten ++ _
      rw [List.map_append, List.flatten_append, hsegs, List.map_singleton, Function.update_self, hyk,
        hi.split]
      simp [segments, items]
    · refine List.nodup_append.mpr ⟨hi.takes, List.nodup_singleton k, ?_⟩
      rintro x hx y hy rfl
      rw [List.mem_singleton.mp hy] at hx
      exact hnew hx
    · change j ∈ s.takes ++ [k] ↔ Function.update s.iter k (some s.head) j ≠ none
      rw [List.mem_append, List.mem_singleton]
      by_cases hjk : j = k
      · subst hjk
        rw [Function.update_self]
        exact ⟨fun _ => nofun, fun _ => .inr rfl⟩
      · rw [Function.update_of_ne hjk, ← hi.taken j]
        exact ⟨fun h => h.resolve_right hjk, .inl⟩
  · cases h

theorem inv_next (hi : Inv s l d) {k : κ} (h : step s (.next k) = some s') : ∃ d', Inv s' l d' := by
  rw [step] at h
  split at h
  · cases h
  · cases h
    exact ⟨d, hi⟩
  · rename_i a hk
    cases h
    have hchain := hi.shape.iter k _ hk
    cases hd : d k with
    | nil =>
      rw [hd] at hchain
      cases hchain
    | cons b rest =>
      have hnodup := chain_nodup hchain
      rw [hd] at hchain hnodup
      obtain ⟨hb, hchain⟩ := hchain
      cases hb
      have hplace : s.place a = .iter k := hi.shape.inIter k a (by rw [hd]; exact List.mem_cons_self)
      have hne : ∀ b, s.place b ≠ .iter k → b ≠ a := by
        rintro b hb rfl
        exact hb hplace
      refine ⟨Function.update d k rest, ?_, fun j hj => ?_, fun i b hb => ?_, hi.link, ?_, hi.done,
        hi.once, hi.takes, fun j => ?_⟩
      · refine ⟨hi.shape.list, fun b hb => ?_, fun j p hj => ?_, fun j b hb => ?_⟩
        · have hl := hi.shape.inList b hb
          exact (Function.update_of_ne (hne b (hl ▸ nofun)) _ _).trans hl
        · change Function.update s.iter k (some (s.mem a).next) j = some p at hj
          by_cases hjk : j = k
          · subst hjk
            rw [Function.update_self] at hj ⊢
            cases hj
            exact hchain
          · rw [Function.update_of_ne hjk] at hj ⊢
            exact hi.shape.iter j p hj
        · change Function.update s.place a .free b = .iter j
          by_cases hjk : j = k
          · subst hjk
            rw [Function.update_self] at hb
            have hba : b ≠ a := by
              rintro rfl
              exact (List.nodup_cons.mp hnodup).1 hb
            rw [Function.update_of_ne hba]
            exact hi.shape.inIter j b (by rw [hd]; exact List.mem_cons_of_mem _ hb)
          · rw [Function.update_of_ne hjk] at hb
            have hpb := hi.shape.inIter j b hb
            rw [Function.update_of_ne (hne b (fun he => hjk ?_))]
            · exact hpb
            · rw [hpb] at he
              exact Place.iter.inj he
      · change Function.update s.iter k (some (s.mem a).next) j = none at hj
        by_cases hjk : j = k
        · subst hjk
          rw [Function.update_self] at hj
          cases hj
        · rw [Function.update_of_ne hjk] at hj
          simp only [Function.update_of_ne hjk]
          exact hi.idle j hj
      · obtain ⟨hp, hitem⟩ := hi.node i b hb
        exact ⟨(Function.update_of_ne (hne b (hp ▸ nofun)) _ _).trans hp, hitem⟩
      · -- the item moves from what is left to what was yielded
        have hsame : ∀ j, Function.update s.yielded k (s.yielded k ++ [(s.mem a).item]) j ++
            items s.mem (Function.update d k rest j) = s.yielded j ++ items s.mem (d j) := by
          intro j
          by_cases hjk : j = k
          · subst hjk
            rw [Function.update_self, Function.update_self, hd, List.append_assoc]
            rfl
          · rw [Function.update_of_ne hjk, Function.update_of_ne hjk]
        rw [hi.split, segments, segments]
        simp only [hsame]
      · change j ∈ s.takes ↔ Function.update s.iter k (some (s.mem a).next) j ≠ none
        by_cases hjk : j = k
        · subst hjk
          rw [Function.update_self, hi.taken j, hk]
          exact ⟨fun _ => nofun, fun _ => nofun⟩
        · rw [Function.update_of_ne hjk]
          exact hi.taken j

theorem inv_reuse (hi : Inv s l d) {a : Nat} {x : Item ι} (h : step s (.reuse a x) = some s') :
    Inv s' l d := by
  rw [step] at h
  split at h
  · rename_i hfree
    cases h
    have hfree := place_eq_free hfree
    have ha := apart_of_free hfree
    obtain ⟨hl, hd⟩ := ha.off hi.shape
    have hne : ∀ j b, (s.push j).node = some b → b ≠ a := by
      rintro j b hj rfl
      have hp := (hi.node j b hj).1
      rw [hfree] at hp
      cases hp
    refine ⟨hi.shape.write ha fun _ _ => rfl, hi.idle, fun j b hj => ?_, fun j b h hj => ?_, ?_,
      hi.done, hi.once, hi.takes, hi.taken⟩
    · simp only [Function.update_of_ne (hne j b hj)]
      exact hi.node j b hj
    · have hb := hne j b (by rw [hj]; rfl)
      simp only [Function.update_of_ne hb]
      exact hi.link j b h hj
    · exact hi.split.trans (segments_write hl hd _ _).symm
  · cases h

theorem step_inv (hi : Inv s l d) {a : Act ι κ} (h : step s a = some s') :
    ∃ l' d', Inv s' l' d' := by
  cases a with
  | boxNew i a => exact ⟨l, d, inv_boxNew hi h⟩
  | load i => exact ⟨l, d, inv_load hi h⟩
  | store i => exact ⟨l, d, inv_store hi h⟩
  | compareAndSwap i =>
    obtain ⟨l', h'⟩ := inv_compareAndSwap hi h
    exact ⟨l', d, h'⟩
  | takeIter k =>
    obtain ⟨d', h'⟩ := inv_takeIter hi h
    exact ⟨[], d', h'⟩
  | next k =>
    obtain ⟨d', h'⟩ := inv_next hi h
    exact ⟨l, d', h'⟩
  | reuse a x => exact ⟨l, d, inv_reuse hi h⟩

end steps

/-- What the list guarantees in a state: `inList` are the items still in the list,
and `rest` what each drain has taken and not yet yielded. -/
structure Delivered (s : State ι κ) (inList : List ι) (rest : κ → List ι) : Prop where
  list : Items s.mem s.head inList
  drain : ∀ k p, s.iter k = some p → Items s.mem p (rest k)
  idle : ∀ k, s.iter k = none → rest k = [] ∧ s.yielded k = []
  drained : ∀ k, s.iter k = some none → rest k = []
  pushed : ∀ i, s.push i = .ok →
    (i ∈ inList ∧ ∀ k, i ∉ s.yielded k ++ rest k) ∨
      (i ∉ inList ∧ ∃! k, i ∈ s.yielded k ++ rest k)
  genuine : ∀ k i, i ∈ s.yielded k → s.push i = .ok
  once : ∀ k, (s.yielded k ++ rest k).Nodup
  order : ∀ k, (s.yielded k ++ rest k).reverse.Sublist s.pushes

theorem Inv.piece_sublist (hi : Inv s l d) (k : κ) :
    (s.yielded k ++ items s.mem (d k)).reverse.Sublist s.pushes := by
  by_cases hk : s.iter k = none
  · obtain ⟨hd, hy⟩ := hi.idle k hk
    rw [hd, hy]
    exact List.nil_sublist _
  · rw [hi.split, segments]
    have hmem : (s.yielded k ++ items s.mem (d k)).reverse ∈
        s.takes.map fun k => (s.yielded k ++ items s.mem (d k)).reverse :=
      List.mem_map.mpr ⟨k, (hi.taken k).mpr hk, rfl⟩
    exact (List.sublist_flatten_of_mem hmem).trans (List.sublist_append_left _ _)

theorem Inv.mem_piece (hi : Inv s l d) {i : ι} {k : κ} (h : i ∈ s.yielded k ++ items s.mem (d k)) :
    k ∈ s.takes := by
  rw [hi.taken]
  intro hk
  obtain ⟨hd, hy⟩ := hi.idle k hk
  rw [hd, hy] at h
  exact absurd h List.not_mem_nil

/-- An item is in one segment only. -/
theorem Inv.piece_unique (hi : Inv s l d) {i : ι} {j k : κ}
    (hj : i ∈ s.yielded j ++ items s.mem (d j)) (hk : i ∈ s.yielded k ++ items s.mem (d k)) :
    j = k := by
  by_contra hjk
  have honce := hi.once
  rw [hi.split, segments] at honce
  have hpair := (List.nodup_flatten.mp (List.nodup_append.mp honce).1).2
  rw [List.pairwise_map] at hpair
  have hsymm : Std.Symm fun j k : κ => List.Disjoint (s.yielded j ++ items s.mem (d j)).reverse
      (s.yielded k ++ items s.mem (d k)).reverse := ⟨fun _ _ h => h.symm⟩
  have hdisj := hpair.forall (hi.mem_piece hj) (hi.mem_piece hk) hjk
  exact hdisj (List.mem_reverse.mpr hj) (List.mem_reverse.mpr hk)

theorem Inv.piece_not_inList (hi : Inv s l d) {i : ι} {k : κ}
    (hk : i ∈ s.yielded k ++ items s.mem (d k)) : i ∉ items s.mem l := by
  intro hl
  have honce := hi.once
  rw [hi.split, segments] at honce
  refine (List.nodup_append.mp honce).2.2 i ?_ i (List.mem_reverse.mpr hl) rfl
  exact List.mem_flatten.mpr ⟨_, List.mem_map.mpr ⟨k, hi.mem_piece hk, rfl⟩, List.mem_reverse.mpr hk⟩

theorem Inv.inList_or_piece (hi : Inv s l d) {i : ι} (h : i ∈ s.pushes) :
    i ∈ items s.mem l ∨ ∃ k, i ∈ s.yielded k ++ items s.mem (d k) := by
  rw [hi.split, segments, List.mem_append, List.mem_reverse] at h
  rcases h with h | h
  · obtain ⟨piece, hp, hmem⟩ := List.mem_flatten.mp h
    obtain ⟨k, -, rfl⟩ := List.mem_map.mp hp
    exact .inr ⟨k, List.mem_reverse.mp hmem⟩
  · exact .inl h

theorem Inv.delivered (hi : Inv s l d) :
    Delivered s (items s.mem l) (fun k => items s.mem (d k)) where
  list := ⟨l, hi.shape.list, rfl⟩
  drain k p hk := ⟨d k, hi.shape.iter k p hk, rfl⟩
  idle k hk := by
    obtain ⟨hd, hy⟩ := hi.idle k hk
    rw [hd]
    exact ⟨rfl, hy⟩
  drained k hk := by
    have hd : d k = [] := chain_unique (hi.shape.iter k none hk) rfl
    rw [hd]
    rfl
  pushed i hok := by
    rcases hi.inList_or_piece ((hi.done i).mp hok) with hl | ⟨k, hk⟩
    · exact .inl ⟨hl, fun k hk => hi.piece_not_inList hk hl⟩
    · exact .inr ⟨hi.piece_not_inList hk, k, hk, fun j hj => hi.piece_unique hj hk⟩
  genuine k i h := by
    refine (hi.done i).mpr ((hi.piece_sublist k).subset ?_)
    exact List.mem_reverse.mpr (List.mem_append_left _ h)
  once k := by
    have h := (hi.piece_sublist k).nodup hi.once
    exact List.nodup_reverse.mp h
  order := hi.piece_sublist

section runs

variable [DecidableEq ι] [DecidableEq κ]

theorem run_inv {mem : Nat → Item ι} {as : List (Act ι κ)}
    (h : run step (initial ι κ mem) as = some s) : ∃ l d, Inv s l d :=
  Run.invariant (I := fun s => ∃ l d, Inv s l d)
    (fun _ _ _ ⟨_, _, hi⟩ hs => step_inv hi hs) ⟨[], fun _ => [], initial_inv mem⟩ h

/-- Calling `next` over and over yields all that the drain has taken. -/
theorem drain_run {k : κ} {p : Option Nat} {r : List Nat} (hk : s.iter k = some p)
    (hc : Chain (links s.mem) p r) :
    ∃ s', run step s (List.replicate r.length (.next k)) = some s' ∧ s'.iter k = some none ∧
      s'.yielded k = s.yielded k ++ items s.mem r := by
  induction r generalizing s p with
  | nil =>
    cases hc
    exact ⟨s, rfl, hk, (List.append_nil _).symm⟩
  | cons a r ih =>
    obtain ⟨rfl, hc⟩ := hc
    have hstep : step s (.next k) = some { s with
        place := Function.update s.place a .free
        iter := Function.update s.iter k (some (s.mem a).next)
        yielded := Function.update s.yielded k (s.yielded k ++ [(s.mem a).item]) } := by
      simp only [step, hk]
    obtain ⟨s', hrun, hend, hy⟩ := ih (s := { s with
        place := Function.update s.place a .free
        iter := Function.update s.iter k (some (s.mem a).next)
        yielded := Function.update s.yielded k (s.yielded k ++ [(s.mem a).item]) })
      (Function.update_self _ _ _) hc
    refine ⟨s', ?_, hend, ?_⟩
    · rw [List.length_cons, List.replicate_succ, run_cons, hstep]
      exact hrun
    · rw [hy]
      simp only [Function.update_self]
      rw [List.append_assoc]
      rfl

/-- However the pushes and the drains are interleaved and addresses reused, every
item pushed is still in the list or with one drain, which yields it once and in
the reverse order of the pushes; the drain can always be finished. -/
theorem delivered_once (mem : Nat → Item ι) (as : List (Act ι κ)) (s : State ι κ)
    (h : run step (initial ι κ mem) as = some s) :
    ∃ inList rest, Delivered s inList rest ∧
      ∀ k, s.iter k ≠ none → ∃ s',
        run step s (List.replicate (rest k).length (.next k)) = some s' ∧
          s'.iter k = some none ∧ s'.yielded k = s.yielded k ++ rest k := by
  obtain ⟨l, d, hi⟩ := run_inv h
  refine ⟨_, _, hi.delivered, fun k hk => ?_⟩
  obtain ⟨p, hp⟩ := Option.ne_none_iff_exists'.mp hk
  have hdrain := drain_run hp (hi.shape.iter k p hp)
  rwa [items, List.length_map]

/-- Call `1` loads the head `7`; the node there is consumed, and call `2` puts a
new one at the same address before call `1` swaps it for its own. -/
def recycled : List (Act Nat Nat) :=
  [.boxNew 0 (some 7), .load 0, .store 0, .compareAndSwap 0,
    .boxNew 1 (some 8), .load 1, .store 1,
    .takeIter 0, .next 0, .reuse 7 ⟨some 8, 5⟩,
    .boxNew 2 (some 7), .load 2, .store 2, .compareAndSwap 2,
    .compareAndSwap 1, .takeIter 1, .next 1]

def recycledState : State Nat Nat :=
  (run step (initial Nat Nat fun _ => ⟨some 7, 9⟩) recycled).getD (initial Nat Nat fun _ => ⟨none, 0⟩)

theorem delivered_once_recycled :
    recycledState.pushes = [0, 2, 1] ∧ recycledState.yielded 0 = [0] ∧
      recycledState.yielded 1 = [1] ∧
      ∃ inList rest, Delivered recycledState inList rest ∧
        ∀ k, recycledState.iter k ≠ none → ∃ s',
          run step recycledState (List.replicate (rest k).length (.next k)) = some s' ∧
            s'.iter k = some none ∧ s'.yielded k = recycledState.yielded k ++ rest k :=
  ⟨rfl, rfl, rfl, delivered_once _ recycled _ rfl⟩

end runs

end Crabos.AtomicList
