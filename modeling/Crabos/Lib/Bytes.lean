import Mathlib

/-!
# Byte-addressed memory

Numbers of several bytes are kept in little endian order.
-/
namespace Crabos.Bytes

abbrev Mem := Nat → UInt8

/-- The number in the `n` bytes from `a` on. -/
def load (m : Mem) (a : Nat) : Nat → Nat
  | 0 => 0
  | n + 1 => (m a).toNat + 256 * load m (a + 1) n

def store (m : Mem) (a n v : Nat) : Mem := fun x =>
  if a ≤ x ∧ x < a + n then UInt8.ofNat (v / 256 ^ (x - a)) else m x

theorem load_congr {m m' : Mem} {a n : Nat} (h : ∀ x, a ≤ x → x < a + n → m x = m' x) :
    load m a n = load m' a n := by
  induction n generalizing a with
  | zero => rfl
  | succ n ih =>
    have hrest : load m (a + 1) n = load m' (a + 1) n :=
      ih fun x h₁ h₂ => h x (by omega) (by omega)
    rw [load, load, h a (Nat.le_refl a) (by omega), hrest]

/-- A store does not reach numbers apart from its own bytes. -/
theorem load_store_apart (m : Mem) {a n b k : Nat} (v : Nat) (h : b + k ≤ a ∨ a + n ≤ b) :
    load (store m a n v) b k = load m b k := by
  apply load_congr
  intro x h₁ h₂
  rw [store, if_neg (by omega)]

theorem load_store (m : Mem) (a n v : Nat) : load (store m a n v) a n = v % 256 ^ n := by
  induction n generalizing m a v with
  | zero => rw [load, Nat.pow_zero, Nat.mod_one]
  | succ n ih =>
    have hrest : load (store m a (n + 1) v) (a + 1) n = load (store m (a + 1) n (v / 256)) (a + 1) n := by
      apply load_congr
      intro x h₁ h₂
      have hsub : x - a = 1 + (x - (a + 1)) := by omega
      rw [store, if_pos (by omega), store, if_pos (by omega), Nat.div_div_eq_div_mul, hsub,
        Nat.pow_add, Nat.pow_one]
    have hfirst : (store m a (n + 1) v a).toNat = v % 256 := by
      rw [store, if_pos (by omega), Nat.sub_self, Nat.pow_zero, Nat.div_one, UInt8.toNat_ofNat']
    rw [load, hrest, hfirst, ih, Nat.pow_succ', Nat.mod_mul]

/-- The first bytes of a longer store. -/
theorem load_store_le (m : Mem) (a v : Nat) {k n : Nat} (h : k ≤ n) :
    load (store m a n v) a k = v % 256 ^ k := by
  have hsame : load (store m a n v) a k = load (store m a k v) a k := by
    apply load_congr
    intro x h₁ h₂
    rw [store, if_pos (by omega), store, if_pos (by omega)]
  rw [hsame, load_store]

end Crabos.Bytes
