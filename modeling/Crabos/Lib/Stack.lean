import Mathlib

/-!
# A stack of 64-bit words

The stack grows down from its pointer, with the wrap-around of 64-bit
addresses. Words that are pushed are read back upwards from the new pointer in
the opposite order, as the fields of a record that begins there.
-/
namespace Crabos.Stack

abbrev Memory := UInt64 → UInt64

def push (s : Memory × UInt64) (v : UInt64) : Memory × UInt64 :=
  (Function.update s.1 (s.2 - 8) v, s.2 - 8)

def pushes : Memory × UInt64 → List UInt64 → Memory × UInt64 := List.foldl push

/-- The words from an address upwards. -/
def read (mem : Memory) (a : UInt64) : Nat → List UInt64
  | 0 => []
  | n + 1 => mem a :: read mem (a + 8) n

/-- The words of a record at an address. -/
def store (mem : Memory) (a : UInt64) : List UInt64 → Memory
  | [] => mem
  | v :: vs => Function.update (store mem (a + 8) vs) a v

@[simp] theorem pushes_nil (s : Memory × UInt64) : pushes s [] = s := rfl

@[simp] theorem pushes_cons (s : Memory × UInt64) (v : UInt64) (vs : List UInt64) :
    pushes s (v :: vs) = pushes (push s v) vs := rfl

theorem pushes_concat (s : Memory × UInt64) (vs : List UInt64) (v : UInt64) :
    pushes s (vs ++ [v]) = push (pushes s vs) v := by
  simp [pushes]

theorem pushes_append (s : Memory × UInt64) (vs ws : List UInt64) :
    pushes s (vs ++ ws) = pushes (pushes s vs) ws := by
  simp [pushes]

@[simp] theorem length_read (mem : Memory) (a : UInt64) (n : Nat) : (read mem a n).length = n := by
  induction n generalizing a with
  | zero => rfl
  | succ n ih => simp [read, ih]

/-- Addresses that are fewer words apart than there are in the address space differ. -/
theorem slot_ne (a : UInt64) {i j : Nat} (h : i < j) (hj : 8 * j < 2 ^ 64) :
    a + UInt64.ofNat (8 * i) ≠ a + UInt64.ofNat (8 * j) := by
  intro he
  have ht := congrArg UInt64.toNat (UInt64.add_right_inj a |>.mp he)
  rw [UInt64.toNat_ofNat', UInt64.toNat_ofNat', Nat.mod_eq_of_lt (by omega), Nat.mod_eq_of_lt hj] at ht
  omega

theorem succ_slot (a : UInt64) (i : Nat) :
    a + 8 + UInt64.ofNat (8 * i) = a + UInt64.ofNat (8 * (i + 1)) := by
  rw [Nat.mul_succ, Nat.add_comm, UInt64.ofNat_add, ← UInt64.add_assoc]
  rfl

theorem read_congr {mem mem' : Memory} {a : UInt64} {n : Nat}
    (h : ∀ i < n, mem (a + UInt64.ofNat (8 * i)) = mem' (a + UInt64.ofNat (8 * i))) :
    read mem a n = read mem' a n := by
  induction n generalizing a with
  | zero => rfl
  | succ n ih =>
    rw [read, read]
    congr 1
    · simpa using h 0 (Nat.succ_pos n)
    · apply ih
      intro i hi
      simpa only [succ_slot] using h (i + 1) (Nat.succ_lt_succ hi)

/-- A write one word below does not change what is read from an address. -/
theorem read_below (mem : Memory) (a v : UInt64) {n : Nat} (hn : 8 * (n + 1) ≤ 2 ^ 64) :
    read (Function.update mem (a - 8) v) a n = read mem a n := by
  apply read_congr
  intro i hi
  apply Function.update_of_ne
  have hne := slot_ne (a - 8) (Nat.succ_pos i) (by omega)
  rw [← succ_slot, UInt64.sub_add_cancel] at hne
  intro he
  apply hne
  rw [he]
  simp

theorem pushes_read (mem : Memory) (sp : UInt64) (vs : List UInt64) (hv : 8 * vs.length ≤ 2 ^ 64) :
    read (pushes (mem, sp) vs).1 (pushes (mem, sp) vs).2 vs.length = vs.reverse := by
  induction vs using List.reverseRecOn with
  | nil => rfl
  | append_singleton vs v ih =>
    rw [List.length_append, List.length_singleton] at hv ⊢
    rw [pushes_concat, push, read, UInt64.sub_add_cancel, read_below _ _ _ hv, ih (by omega)]
    simp

theorem store_read (mem : Memory) (a : UInt64) (vs : List UInt64) (hv : 8 * vs.length ≤ 2 ^ 64) :
    read (store mem a vs) a vs.length = vs := by
  induction vs generalizing a with
  | nil => rfl
  | cons v vs ih =>
    rw [List.length_cons] at hv ⊢
    have hrest := read_below (store mem (a + 8) vs) (a + 8) v hv
    rw [UInt64.add_sub_cancel] at hrest
    rw [store, read, Function.update_self, hrest, ih _ (by omega)]

end Crabos.Stack
