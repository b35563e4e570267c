import Mathlib

/-!
# Validation of UTF-8

`fromUtf8` checks a byte string character by character, as `core::str::from_utf8`
does. At the first place where it cannot go on it tells how much was valid, and
how many bytes belong to the error; that number is missing where the string ends
within a character.
-/
namespace Crabos.Utf8

def cont (b : UInt8) : Bool := 0x80 ≤ b && b ≤ 0xbf

/-- The length of a character with this first byte; zero if there is none. -/
def width (b : UInt8) : Nat :=
  if b < 0x80 then 1
  else if 0xc2 ≤ b ∧ b ≤ 0xdf then 2
  else if 0xe0 ≤ b ∧ b ≤ 0xef then 3
  else if 0xf0 ≤ b ∧ b ≤ 0xf4 then 4
  else 0

/-- The second byte is restricted behind some first bytes. -/
def second (b c : UInt8) : Bool :=
  if b = 0xe0 then 0xa0 ≤ c && c ≤ 0xbf
  else if b = 0xed then 0x80 ≤ c && c ≤ 0x9f
  else if b = 0xf0 then 0x90 ≤ c && c ≤ 0xbf
  else if b = 0xf4 then 0x80 ≤ c && c ≤ 0x8f
  else cont c

/-- The last bytes of a character, of which `n` have been seen. -/
def more : Nat → List UInt8 → Nat → Except (Option Nat) Nat
  | 0, _, n => .ok n
  | _ + 1, [], _ => .error none
  | k + 1, c :: rest, n => if cont c then more k rest (n + 1) else .error (some n)

/-- What follows the first byte of a character of two bytes or more. -/
def behind (b : UInt8) : List UInt8 → Except (Option Nat) Nat
  | [] => .error none
  | c :: rest => if second b c then more (width b - 2) rest 2 else .error (some 1)

/-- The length of the first character, or the length of the error. -/
def first : List UInt8 → Except (Option Nat) Nat
  | [] => .error none
  | b :: rest =>
    if width b = 0 then .error (some 1) else if width b = 1 then .ok 1 else behind b rest

structure Utf8Error where
  validUpTo : Nat
  errorLen : Option Nat
  deriving DecidableEq, Repr

/-- Every turn consumes a byte, so the length bounds the number of turns. -/
def validate : Nat → List UInt8 → Nat → Option Utf8Error
  | 0, _, _ => none
  | turns + 1, buf, idx =>
    if buf = [] then none
    else
      match first buf with
      | .ok n => validate turns (buf.drop n) (idx + n)
      | .error e => some ⟨idx, e⟩

def fromUtf8 (buf : List UInt8) : Except Utf8Error (List UInt8) :=
  match validate buf.length buf 0 with
  | none => .ok buf
  | some e => .error e

theorem second_cont {b c : UInt8} (h : second b c = true) : cont c = true := by
  revert h
  simp only [second, cont]
  split
  · simp only [Bool.and_eq_true, decide_eq_true_eq]
    exact fun h => ⟨UInt8.le_trans (by decide : (0x80 : UInt8) ≤ 0xa0) h.1, h.2⟩
  split
  · simp only [Bool.and_eq_true, decide_eq_true_eq]
    exact fun h => ⟨h.1, UInt8.le_trans h.2 (by decide : (0x9f : UInt8) ≤ 0xbf)⟩
  split
  · simp only [Bool.and_eq_true, decide_eq_true_eq]
    exact fun h => ⟨UInt8.le_trans (by decide : (0x80 : UInt8) ≤ 0x90) h.1, h.2⟩
  split
  · simp only [Bool.and_eq_true, decide_eq_true_eq]
    exact fun h => ⟨h.1, UInt8.le_trans h.2 (by decide : (0x8f : UInt8) ≤ 0xbf)⟩
  · exact id

/-- How many bytes are consumed with the answer: a character, or an error. -/
def consumed : Except (Option Nat) Nat → Nat
  | .ok n => n
  | .error (some n) => n
  | .error none => 0

/-- Apart from the first one, the bytes that are consumed are continuations. -/
theorem more_consumed {k n : Nat} {l : List UInt8} {r : Except (Option Nat) Nat}
    (h : more k l n = r) (hr : r ≠ .error none) :
    n ≤ consumed r ∧ consumed r - n ≤ l.length ∧ ∀ c ∈ l.take (consumed r - n), cont c = true := by
  induction k generalizing l n with
  | zero =>
    subst h
    simp [more, consumed]
  | succ k ih =>
    cases l with
    | nil => exact absurd h.symm hr
    | cons c l =>
      rw [more] at h
      split at h
      · rename_i hc
        obtain ⟨h₁, h₂, h₃⟩ := ih h
        have hsub : consumed r - n = consumed r - (n + 1) + 1 := by omega
        refine ⟨by omega, ?_, ?_⟩
        · rw [hsub, List.length_cons]
          omega
        · rw [hsub, List.take_succ_cons]
          intro x hx
          rcases List.mem_cons.mp hx with rfl | hx
          · exact hc
          · exact h₃ x hx
      · subst h
        simp [consumed]

theorem first_consumed {l : List UInt8} (hr : first l ≠ .error none) :
    1 ≤ consumed (first l) ∧ consumed (first l) ≤ l.length ∧
      ∀ c ∈ (l.take (consumed (first l))).tail, cont c = true := by
  cases l with
  | nil => exact absurd rfl hr
  | cons b rest =>
    have hone : ∀ r : Except (Option Nat) Nat, consumed r = 1 →
        1 ≤ consumed r ∧ consumed r ≤ (b :: rest).length ∧
          ∀ c ∈ ((b :: rest).take (consumed r)).tail, cont c = true := by
      intro r h
      rw [h]
      simp
    rw [first] at hr ⊢
    split
    · exact hone _ rfl
    rename_i h0
    rw [if_neg h0] at hr
    split
    · exact hone _ rfl
    rename_i h1
    rw [if_neg h1] at hr
    cases rest with
    | nil => exact absurd rfl hr
    | cons c rest =>
      rw [behind] at hr ⊢
      split
      · rename_i hc
        rw [if_pos hc] at hr
        obtain ⟨h₁, h₂, h₃⟩ := more_consumed rfl hr
        generalize consumed (more (width b - 2) rest 2) = m at *
        obtain ⟨m, rfl⟩ := Nat.exists_eq_add_of_le' h₁
        rw [Nat.add_sub_cancel] at h₂ h₃
        refine ⟨by omega, by simpa using h₂, ?_⟩
        rw [List.take_succ_cons, List.take_succ_cons, List.tail_cons]
        intro x hx
        rcases List.mem_cons.mp hx with rfl | hx
        · exact second_cont hc
        · exact h₃ x hx
      · exact hone _ rfl

/-- A continuation is no first byte. -/
theorem first_cont {b : UInt8} {l : List UInt8} (hc : cont b = true) :
    first (b :: l) = .error (some 1) := by
  have hw : width b = 0 := by
    rw [cont, Bool.and_eq_true, decide_eq_true_eq, decide_eq_true_eq, UInt8.le_iff_toNat_le,
      UInt8.le_iff_toNat_le] at hc
    simp only [width, UInt8.lt_iff_toNat_lt, UInt8.le_iff_toNat_le]
    change 128 ≤ b.toNat ∧ b.toNat ≤ 191 at hc
    change (if b.toNat < 128 then 1 else if 194 ≤ b.toNat ∧ b.toNat ≤ 223 then 2
      else if 224 ≤ b.toNat ∧ b.toNat ≤ 239 then 3
      else if 240 ≤ b.toNat ∧ b.toNat ≤ 244 then 4 else 0) = 0
    rw [if_neg (by omega), if_neg (by omega), if_neg (by omega), if_neg (by omega)]
  rw [first, if_pos hw]

/-- What is consumed at the front ends before the next byte that is no continuation. -/
theorem consumed_le_lead {l : List UInt8} {p : Nat} (hp : p < l.length) (hp0 : p ≠ 0)
    (h : first (l.drop p) ≠ .error (some 1)) (hr : first l ≠ .error none) :
    consumed (first l) ≤ p := by
  obtain ⟨h₁, h₂, h₃⟩ := first_consumed hr
  by_contra hlt
  obtain ⟨p, rfl⟩ := Nat.exists_eq_succ_of_ne_zero hp0
  rw [List.drop_eq_getElem_cons hp] at h
  have hmem : l[p + 1] ∈ (l.take (consumed (first l))).tail := by
    have hlen : p < (l.take (consumed (first l))).tail.length := by
      rw [List.length_tail, List.length_take]
      omega
    have hget : (l.take (consumed (first l))).tail[p] = l[p + 1] := by
      rw [List.getElem_tail, List.getElem_take]
    rw [← hget]
    exact List.getElem_mem hlen
  exact h (first_cont (h₃ _ hmem))

/-- What is consumed at the front ends before a cut off character. -/
theorem consumed_le {l : List UInt8} {p : Nat} (hp : p < l.length)
    (h : first (l.drop p) = .error none) (hr : first l ≠ .error none) :
    consumed (first l) ≤ p := by
  apply consumed_le_lead hp ?_ ?_ hr
  · rintro rfl
    exact hr h
  · rw [h]
    simp

theorem more_append {k n r : Nat} {l : List UInt8} (h : more k l n = .ok r) (l' : List UInt8) :
    more k (l ++ l') n = .ok r := by
  induction k generalizing l n with
  | zero =>
    rw [more] at h ⊢
    exact h
  | succ k ih =>
    cases l with
    | nil => cases h
    | cons c l =>
      rw [more] at h
      split at h
      · rename_i hc
        rw [List.cons_append, more, if_pos hc]
        exact ih h
      · cases h

/-- A character is one with more bytes behind it, too. -/
theorem first_append {l : List UInt8} {n : Nat} (h : first l = .ok n) (l' : List UInt8) :
    first (l ++ l') = .ok n := by
  cases l with
  | nil => cases h
  | cons b rest =>
    rw [first] at h
    rw [List.cons_append, first]
    split at h
    · cases h
    rename_i h0
    rw [if_neg h0]
    split at h
    · rename_i h1
      rw [if_pos h1]
      exact h
    rename_i h1
    rw [if_neg h1]
    cases rest with
    | nil => cases h
    | cons c rest =>
      rw [behind] at h
      split at h
      · rename_i hc
        rw [List.cons_append, behind, if_pos hc]
        exact more_append h l'
      · cases h

theorem more_take {k n m : Nat} {l : List UInt8} {r : Nat} (h : more k l n = .ok r)
    (hm : r - n ≤ m) : more k (l.take m) n = .ok r := by
  induction k generalizing l n m with
  | zero =>
    rw [more] at h ⊢
    exact h
  | succ k ih =>
    cases l with
    | nil => cases h
    | cons c l =>
      have hle := (more_consumed h (by simp)).1
      rw [more] at h
      split at h
      · rename_i hc
        have hle := (more_consumed h (by simp)).1
        simp only [consumed] at hle
        obtain ⟨m, rfl⟩ := Nat.exists_eq_add_of_le' (show 1 ≤ m by omega)
        rw [List.take_succ_cons, more, if_pos hc]
        exact ih h (by omega)
      · cases h

/-- The first character does not depend on what follows it. -/
theorem first_take {l : List UInt8} {n m : Nat} (h : first l = .ok n) (hm : n ≤ m) :
    first (l.take m) = .ok n := by
  have hcons := first_consumed (l := l) (by rw [h]; simp)
  rw [h] at hcons
  simp only [consumed] at hcons
  obtain ⟨m, rfl⟩ := Nat.exists_eq_add_of_le' (show 1 ≤ m by omega)
  cases l with
  | nil => cases h
  | cons b rest =>
    rw [List.take_succ_cons]
    rw [first] at h ⊢
    split at h
    · cases h
    rename_i h0
    rw [if_neg h0]
    split at h
    · rename_i h1
      rw [if_pos h1]
      exact h
    rename_i h1
    rw [if_neg h1]
    cases rest with
    | nil => cases h
    | cons c rest =>
      rw [behind] at h
      split at h
      · rename_i hc
        have hle := (more_consumed h (by simp)).1
        simp only [consumed] at hle
        obtain ⟨m, rfl⟩ := Nat.exists_eq_add_of_le' (show 1 ≤ m by omega)
        rw [List.take_succ_cons, behind, if_pos hc]
        exact more_take h (by omega)
      · cases h

/-- The error stands behind valid characters. -/
theorem validate_some {turns idx : Nat} {buf : List UInt8} {e : Utf8Error}
    (h : validate turns buf idx = some e) :
    ∃ v, e.validUpTo = idx + v ∧ v < buf.length ∧ first (buf.drop v) = .error e.errorLen ∧
      ∀ turns idx, validate turns (buf.take v) idx = none := by
  induction turns generalizing buf idx with
  | zero => cases h
  | succ turns ih =>
    rw [validate] at h
    split at h
    · cases h
    rename_i hne
    split at h
    · rename_i n hn
      obtain ⟨v, hv, hlt, hfirst, hvalid⟩ := ih h
      have hpos := (first_consumed (l := buf) (by rw [hn]; simp)).1
      rw [hn] at hpos
      rw [List.length_drop] at hlt
      refine ⟨n + v, by omega, by omega, ?_, fun turns idx => ?_⟩
      · rw [← hfirst, List.drop_drop]
      · cases turns with
        | zero => rfl
        | succ turns =>
          rw [validate, first_take hn (by omega)]
          split
          · rfl
          · change validate turns ((buf.take (n + v)).drop n) (idx + n) = none
            rw [List.drop_take, Nat.add_sub_cancel_left]
            exact hvalid turns _
    · rename_i r hr
      cases h
      refine ⟨0, rfl, List.length_pos_iff.mpr hne, hr, fun turns idx => ?_⟩
      cases turns with
      | zero => rfl
      | succ turns => rfl

theorem fromUtf8_error {buf : List UInt8} {e : Utf8Error} (h : fromUtf8 buf = .error e) :
    e.validUpTo < buf.length ∧ first (buf.drop e.validUpTo) = .error e.errorLen ∧
      fromUtf8 (buf.take e.validUpTo) = .ok (buf.take e.validUpTo) := by
  rw [fromUtf8] at h
  split at h
  · cases h
  rename_i e' he
  cases h
  obtain ⟨v, hv, hlt, hfirst, hvalid⟩ := validate_some he
  rw [Nat.zero_add] at hv
  rw [hv, fromUtf8, hvalid]
  exact ⟨hlt, hfirst, rfl⟩

theorem fromUtf8_ok {buf s : List UInt8} (h : fromUtf8 buf = .ok s) : s = buf := by
  rw [fromUtf8] at h
  split at h
  · cases h
    rfl
  · cases h

theorem validate_cut {turns idx p : Nat} {buf : List UInt8} (ht : buf.length ≤ turns)
    (hp : p < buf.length) (h : first (buf.drop p) = .error none) :
    ∃ e, validate turns buf idx = some e ∧ e.validUpTo ≤ idx + p ∧
      ∀ k, e.errorLen = some k → e.validUpTo + k ≤ idx + p := by
  induction turns generalizing buf idx p with
  | zero => omega
  | succ turns ih =>
    have hne : buf ≠ [] := by
      rintro rfl
      cases hp
    rw [validate, if_neg hne]
    have hle : first buf ≠ .error none → consumed (first buf) ≤ p := consumed_le hp h
    have hpos : first buf ≠ .error none → 1 ≤ consumed (first buf) := fun hr =>
      (first_consumed hr).1
    cases hf : first buf with
    | ok n =>
      rw [hf] at hle hpos
      have hle : n ≤ p := hle nofun
      have hpos : 1 ≤ n := hpos nofun
      have ht' : (buf.drop n).length ≤ turns := by
        rw [List.length_drop]
        omega
      have hp' : p - n < (buf.drop n).length := by
        rw [List.length_drop]
        omega
      have h' : first ((buf.drop n).drop (p - n)) = .error none := by
        rw [List.drop_drop, Nat.add_sub_cancel' hle]
        exact h
      obtain ⟨e, he, h₁, h₂⟩ := @ih (idx + n) (p - n) (buf.drop n) ht' hp' h'
      refine ⟨e, he, by omega, fun k hk => ?_⟩
      have := h₂ k hk
      omega
    | error r =>
      rw [hf] at hle
      refine ⟨⟨idx, r⟩, rfl, Nat.le_add_right _ _, fun k hk => ?_⟩
      cases hk
      exact Nat.add_le_add_left (hle nofun) idx

/-- A string that ends within a character has an error no later than there. -/
theorem fromUtf8_cut {buf : List UInt8} {p : Nat} (hp : p < buf.length)
    (h : first (buf.drop p) = .error none) :
    ∃ e, fromUtf8 buf = .error e ∧ e.validUpTo + e.errorLen.getD 0 ≤ p := by
  obtain ⟨e, he, h₁, h₂⟩ := validate_cut (Nat.le_refl _) hp h
  rw [Nat.zero_add] at h₁ h₂
  refine ⟨e, by rw [fromUtf8, he], ?_⟩
  cases hk : e.errorLen with
  | none => exact h₁
  | some k => exact h₂ k hk

theorem validate_ascii {turns idx : Nat} {buf : List UInt8} (h : ∀ b ∈ buf, b < 0x80) :
    validate turns buf idx = none := by
  induction turns generalizing buf idx with
  | zero => rfl
  | succ turns ih =>
    cases buf with
    | nil => rfl
    | cons b rest =>
      have hwidth : width b = 1 := if_pos (h b List.mem_cons_self)
      rw [validate, if_neg (List.cons_ne_nil _ _), first, hwidth]
      exact ih fun c hc => h c (List.mem_cons_of_mem _ hc)

/-- ASCII is UTF-8. -/
theorem fromUtf8_ascii {buf : List UInt8} (h : ∀ b ∈ buf, b < 0x80) : fromUtf8 buf = .ok buf := by
  rw [fromUtf8, validate_ascii h]

/-- A string of whole characters. -/
inductive Valid : List UInt8 → Prop where
  | nil : Valid []
  | char {buf : List UInt8} {n : Nat} (hfirst : first buf = .ok n) (hrest : Valid (buf.drop n)) :
    Valid buf

theorem validate_valid {turns idx : Nat} {buf : List UInt8} (ht : buf.length ≤ turns) :
    validate turns buf idx = none ↔ Valid buf := by
  induction turns generalizing buf idx with
  | zero =>
    have hnil : buf = [] := List.length_eq_zero_iff.mp (Nat.le_zero.mp ht)
    rw [hnil]
    exact ⟨fun _ => .nil, fun _ => rfl⟩
  | succ turns ih =>
    cases buf with
    | nil => exact ⟨fun _ => .nil, fun _ => rfl⟩
    | cons b rest =>
      rw [validate, if_neg (List.cons_ne_nil _ _)]
      cases hf : first (b :: rest) with
      | error e =>
        constructor
        · intro h
          cases h
        · intro h
          cases h with
          | char hfirst hrest =>
            rw [hf] at hfirst
            cases hfirst
      | ok n =>
        have hpos := (first_consumed (l := b :: rest) (by rw [hf]; simp)).1
        rw [hf] at hpos
        simp only [consumed] at hpos
        have hle : ((b :: rest).drop n).length ≤ turns := by
          rw [List.length_drop]
          omega
        change validate turns ((b :: rest).drop n) (idx + n) = none ↔ _
        rw [ih hle]
        constructor
        · exact fun h => .char hf h
        · intro h
          cases h with
          | char hfirst hrest =>
            rw [hf] at hfirst
            cases hfirst
            exact hrest

theorem fromUtf8_valid {buf : List UInt8} : (fromUtf8 buf).isOk = true ↔ Valid buf := by
  rw [← @validate_valid _ 0 _ (Nat.le_refl _), fromUtf8]
  cases validate buf.length buf 0 with
  | none => simp [Except.isOk, Except.toBool]
  | some e => simp [Except.isOk, Except.toBool]

theorem ascii_not_cont {b : UInt8} (h : b < 0x80) : cont b = false := by
  rw [cont, Bool.and_eq_false_iff, decide_eq_false_iff_not]
  exact .inl (UInt8.not_le.mpr h)

/-- A character ends before the next byte of ASCII. -/
theorem first_before {b : UInt8} {l₁ l₂ : List UInt8} {n : Nat} (hb : b < 0x80) (hne : l₁ ≠ [])
    (h : first (l₁ ++ b :: l₂) = .ok n) : n ≤ l₁.length ∧ first l₁ = .ok n := by
  have hcons := first_consumed (l := l₁ ++ b :: l₂) (by rw [h]; simp)
  rw [h] at hcons
  simp only [consumed] at hcons
  obtain ⟨-, -, hcont⟩ := hcons
  have hle : n ≤ l₁.length := by
    by_contra hlt
    have hmem : b ∈ ((l₁ ++ b :: l₂).take n).tail := by
      obtain ⟨m, rfl⟩ := Nat.exists_eq_add_of_lt (Nat.lt_of_not_le hlt)
      rw [Nat.add_assoc, List.take_length_add_append, List.take_succ_cons,
        List.tail_append_of_ne_nil hne]
      simp
    have := hcont b hmem
    rw [ascii_not_cont hb] at this
    cases this
  have htake := first_take h hle
  rw [List.take_left] at htake
  exact ⟨hle, htake⟩

/-- A string can be cut at a byte of ASCII. -/
theorem Valid.split {b : UInt8} {l₁ l₂ : List UInt8} (hb : b < 0x80) (h : Valid (l₁ ++ b :: l₂)) :
    Valid l₁ ∧ Valid l₂ := by
  generalize hbuf : l₁ ++ b :: l₂ = buf at h
  induction h generalizing l₁ with
  | nil => simp at hbuf
  | @char buf n hfirst hrest ih =>
    subst hbuf
    by_cases hne : l₁ = []
    · subst hne
      have hwidth : width b = 1 := if_pos hb
      rw [List.nil_append, first, hwidth] at hfirst
      cases hfirst
      exact ⟨.nil, hrest⟩
    · obtain ⟨hle, hfirst'⟩ := first_before hb hne hfirst
      have hdrop : (l₁ ++ b :: l₂).drop n = l₁.drop n ++ b :: l₂ := List.drop_append_of_le_length hle
      obtain ⟨h₁, h₂⟩ := ih hdrop.symm
      exact ⟨.char hfirst' h₁, h₂⟩

/-- The parts between bytes of ASCII are strings of whole characters. -/
theorem Valid.splitOn {b : UInt8} {l : List UInt8} (hb : b < 0x80) (h : Valid l) :
    ∀ part ∈ l.splitOn b, Valid part := by
  induction hn : l.length using Nat.strong_induction_on generalizing l with
  | _ n ih =>
    by_cases hmem : b ∈ l
    · obtain ⟨l₁, l₂, rfl, hnot⟩ := List.eq_append_cons_of_mem hmem
      obtain ⟨h₁, h₂⟩ := h.split hb
      rw [List.splitOn_append_cons_self_of_not_mem hnot]
      intro part hpart
      cases hpart with
      | head => exact h₁
      | tail _ hpart =>
        have hlt : l₂.length < n := by
          rw [← hn, List.length_append, List.length_cons]
          omega
        exact ih _ hlt h₂ rfl part hpart
    · rw [List.splitOn_eq_singleton hmem]
      intro part hpart
      rw [List.mem_singleton.mp hpart]
      exact h

end Crabos.Utf8
