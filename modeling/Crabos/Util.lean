import Crabos.Lib.Utf8

/-!
# Text from user buffers (`kernel/src/util/mod.rs`, `kernel/src/fs/vfs.rs`)

`utf8_valid_parts` cuts a buffer into its valid parts, with one call of its
closure for each of them. A call goes on from the index that the last one has
left behind, so the calls come to an end only if the index does not stand still.
-/
namespace Crabos.Util

open Crabos.Utf8

inductive Next where
  | finished
  | part (s : List UInt8) (idx : Nat)
  | panic
  deriving DecidableEq

/-- A call of the closure. -/
def next (buf : List UInt8) (idx : Nat) : Next :=
  if buf.length < idx then .panic
  else
    match fromUtf8 (buf.drop idx) with
    | .ok s => if s = [] then .finished else .part s (idx + s.length)
    | .error e =>
      match fromUtf8 ((buf.drop idx).take e.validUpTo) with
      | .error _ => .panic
      | .ok part => .part part (idx + (e.validUpTo + e.errorLen.getD 0))

/-- The parts, each with the number of bytes that its call has consumed; `none`
if the calls do not suffice, or one of them panics. -/
def utf8ValidParts (buf : List UInt8) : Nat → Nat → Option (List (List UInt8 × Nat))
  | 0, _ => none
  | calls + 1, idx =>
    match next buf idx with
    | .finished => some []
    | .panic => none
    | .part s idx' => (utf8ValidParts buf calls idx').map ((s, idx' - idx) :: ·)

/-- `File::write` to the console: the text, and what is returned. -/
def writeConsole (buf : List UInt8) (calls : Nat) : Option (List UInt8 × Nat) :=
  (utf8ValidParts buf calls 0).map fun parts =>
    (((parts.map Prod.fst).intersperse [0x3f]).flatten, buf.length)

/-- The buffer ends within a character: from some place on it is the beginning
of one. -/
def EndsWithin (buf : List UInt8) : Prop := ∃ p < buf.length, first (buf.drop p) = .error none

instance (buf : List UInt8) : Decidable (EndsWithin buf) :=
  inferInstanceAs (Decidable (∃ p < buf.length, first (buf.drop p) = .error none))

/-- Finitely many parts, all of which consume something. -/
def Terminates (buf : List UInt8) : Prop :=
  (∃ calls parts, utf8ValidParts buf calls 0 = some parts ∧ ∀ part ∈ parts, 1 ≤ part.2) ∧
    ∃ calls, writeConsole buf calls ≠ none

variable {buf : List UInt8}

/-- The calls never get past the place where a character is cut off. -/
theorem next_cut {p idx : Nat} (hp : p < buf.length) (h : first (buf.drop p) = .error none)
    (hi : idx ≤ p) : ∃ s idx', next buf idx = .part s idx' ∧ idx' ≤ p := by
  have hp' : p - idx < (buf.drop idx).length := by
    rw [List.length_drop]
    omega
  have h' : first ((buf.drop idx).drop (p - idx)) = .error none := by
    rw [List.drop_drop, Nat.add_sub_cancel' hi]
    exact h
  obtain ⟨e, he, hle⟩ := fromUtf8_cut hp' h'
  obtain ⟨-, -, hpart⟩ := fromUtf8_error he
  rw [next, if_neg (by omega), he]
  simp only [hpart]
  exact ⟨_, _, rfl, by omega⟩

theorem parts_cut {p : Nat} (hp : p < buf.length) (h : first (buf.drop p) = .error none)
    (calls : Nat) {idx : Nat} (hi : idx ≤ p) : utf8ValidParts buf calls idx = none := by
  induction calls generalizing idx with
  | zero => rfl
  | succ calls ih =>
    obtain ⟨s, idx', hnext, hi'⟩ := next_cut hp h hi
    rw [utf8ValidParts, hnext]
    simp only [ih hi', Option.map_none]

/-- Otherwise every call but the last one gets on. -/
theorem next_progress (h : ¬ EndsWithin buf) {idx : Nat} (hi : idx ≤ buf.length) :
    next buf idx = .finished ∨
      ∃ s idx', next buf idx = .part s idx' ∧ idx < idx' ∧ idx' ≤ buf.length := by
  rw [next, if_neg (Nat.not_lt.mpr hi)]
  cases hu : fromUtf8 (buf.drop idx) with
  | ok s =>
    obtain rfl := fromUtf8_ok hu
    by_cases hnil : buf.drop idx = []
    · exact .inl (if_pos hnil)
    · simp only [if_neg hnil]
      refine .inr ⟨_, _, rfl, ?_, ?_⟩
      · have := List.length_pos_iff.mpr hnil
        omega
      · rw [List.length_drop]
        omega
  | error e =>
    obtain ⟨hlt, hfirst, hpart⟩ := fromUtf8_error hu
    simp only [hpart]
    rw [List.length_drop] at hlt
    rw [List.drop_drop] at hfirst
    cases hk : e.errorLen with
    | none =>
      rw [hk] at hfirst
      exact absurd ⟨idx + e.validUpTo, by omega, hfirst⟩ h
    | some k =>
      rw [hk] at hfirst
      have hcons := first_consumed (l := buf.drop (idx + e.validUpTo)) (by rw [hfirst]; simp)
      rw [hfirst] at hcons
      simp only [consumed, List.length_drop] at hcons
      refine .inr ⟨_, _, rfl, ?_, ?_⟩
      · rw [Option.getD_some]
        omega
      · rw [Option.getD_some]
        omega

theorem parts_end (h : ¬ EndsWithin buf) {idx : Nat} (hi : idx ≤ buf.length) :
    ∃ calls parts, utf8ValidParts buf calls idx = some parts ∧ ∀ part ∈ parts, 1 ≤ part.2 := by
  -- on the bytes that are left
  induction hn : buf.length - idx using Nat.strongRecOn generalizing idx with
  | ind n ih =>
    rcases next_progress h hi with hf | ⟨s, idx', hp, hlt, hle⟩
    · refine ⟨1, [], ?_, fun part hm => absurd hm List.not_mem_nil⟩
      rw [utf8ValidParts, hf]
    · obtain ⟨calls, parts, hparts, hpos⟩ := ih (buf.length - idx') (by omega) hle rfl
      refine ⟨calls + 1, (s, idx' - idx) :: parts, ?_, fun part hm => ?_⟩
      · rw [utf8ValidParts, hp]
        simp only [hparts, Option.map_some]
      · rcases List.mem_cons.mp hm with rfl | hm
        · change 1 ≤ idx' - idx
          omega
        · exact hpos part hm

/-- The parts come to an end exactly for a buffer that does not end within a
character. -/
theorem terminates_iff (buf : List UInt8) : Terminates buf ↔ ¬ EndsWithin buf := by
  constructor
  · rintro ⟨⟨calls, parts, hparts, -⟩, -⟩ ⟨p, hp, h⟩
    rw [parts_cut hp h calls (Nat.zero_le p)] at hparts
    cases hparts
  · intro h
    obtain ⟨calls, parts, hparts, hpos⟩ := parts_end h (Nat.zero_le _)
    refine ⟨⟨calls, parts, hparts, hpos⟩, calls, ?_⟩
    rw [writeConsole, hparts]
    exact nofun

/-- The first byte of a character of three bytes, alone. -/
theorem lone_lead_never_ends : ¬ Terminates [0xe2] := by
  rintro ⟨⟨calls, parts, hparts, -⟩, -⟩
  have hcut : first (List.drop 0 [0xe2]) = .error none := by decide
  rw [parts_cut (by decide) hcut calls (Nat.zero_le 0)] at hparts
  cases hparts

/-! What the console is sent. -/

/-- The text with one question mark in the place of each invalid sequence. -/
inductive Replaced : List UInt8 → List UInt8 → Prop where
  | nil : Replaced [] []
  | char {buf out : List UInt8} {n : Nat} (hfirst : first buf = .ok n)
      (hrest : Replaced (buf.drop n) out) : Replaced buf (buf.take n ++ out)
  | invalid {buf out : List UInt8} {n : Nat} (hfirst : first buf = .error (some n))
      (hrest : Replaced (buf.drop n) out) : Replaced buf (0x3f :: out)

/-- `write` returns, and it has sent the text in which every invalid sequence is replaced. -/
def SendsReplaced (buf : List UInt8) : Prop :=
  ∃ calls text, writeConsole buf calls = some (text, buf.length) ∧ Replaced buf text

/-- The last bytes of the buffer are a whole character, or there are none. -/
def EndsWhole (buf : List UInt8) : Prop :=
  buf = [] ∨ ∃ p < buf.length, first (buf.drop p) = .ok (buf.length - p)

instance (buf : List UInt8) : Decidable (EndsWhole buf) :=
  inferInstanceAs (Decidable (_ ∨ ∃ p < buf.length, _))

theorem Replaced.unique {buf out out' : List UInt8} (h : Replaced buf out)
    (h' : Replaced buf out') : out = out' := by
  induction h generalizing out' with
  | nil =>
    cases h' with
    | nil => rfl
    | char hfirst _ => cases hfirst
    | invalid hfirst _ => cases hfirst
  | char hfirst _ ih =>
    cases h' with
    | nil => cases hfirst
    | char hfirst' hrest' =>
      cases hfirst.symm.trans hfirst'
      rw [ih hrest']
    | invalid hfirst' _ => cases hfirst.symm.trans hfirst'
  | invalid hfirst _ ih =>
    cases h' with
    | nil => cases hfirst
    | char hfirst' _ => cases hfirst.symm.trans hfirst'
    | invalid hfirst' hrest' =>
      cases hfirst.symm.trans hfirst'
      rw [ih hrest']

/-- Valid characters are kept. -/
theorem Replaced.valid {v rest out : List UInt8} (hv : Valid v) (h : Replaced rest out) :
    Replaced (v ++ rest) (v ++ out) := by
  induction hv with
  | nil => exact h
  | @char v n hfirst hrest ih =>
    have hle : n ≤ v.length := by
      have hcons := first_consumed (l := v) (by rw [hfirst]; simp)
      rw [hfirst] at hcons
      exact hcons.2.1
    have htake : (v ++ rest).take n = v.take n := List.take_append_of_le_length hle
    have hdrop : (v ++ rest).drop n = v.drop n ++ rest := List.drop_append_of_le_length hle
    have hout : v ++ out = (v ++ rest).take n ++ (v.drop n ++ out) := by
      rw [htake, ← List.append_assoc, List.take_append_drop]
    rw [hout]
    apply Replaced.char (first_append hfirst rest)
    rw [hdrop]
    exact ih

/-- The end of a buffer is that of what is left behind its first sequence. -/
theorem endsWhole_drop {l : List UInt8} {n : Nat} (hr : first l ≠ .error none)
    (hn : consumed (first l) = n) (hlt : n < l.length) : EndsWhole l ↔ EndsWhole (l.drop n) := by
  have hpos := (first_consumed hr).1
  have hdrop : l.drop n ≠ [] := by
    intro h
    have hlen := List.drop_eq_nil_iff.mp h
    omega
  have hl : l ≠ [] := by
    rintro rfl
    exact hdrop List.drop_nil
  constructor
  · rintro (h | ⟨p, hp, h⟩)
    · exact absurd h hl
    · have hp0 : p ≠ 0 := by
        rintro rfl
        rw [List.drop_zero] at h
        rw [h] at hn
        simp only [consumed] at hn
        omega
      have hle := consumed_le_lead hp hp0 (by rw [h]; simp) hr
      rw [hn] at hle
      refine .inr ⟨p - n, by rw [List.length_drop]; omega, ?_⟩
      rw [List.drop_drop, Nat.add_sub_cancel' hle, h, List.length_drop]
      congr 1
      omega
  · rintro (h | ⟨p, hp, h⟩)
    · exact absurd h hdrop
    · rw [List.length_drop] at hp h
      refine .inr ⟨n + p, by omega, ?_⟩
      rw [← List.drop_drop, h]
      congr 1
      omega

/-- A buffer that is one sequence ends with a whole character just when it is one. -/
theorem endsWhole_single {l : List UInt8} (hr : first l ≠ .error none)
    (hn : consumed (first l) = l.length) : EndsWhole l ↔ first l = .ok l.length := by
  have hpos := (first_consumed hr).1
  constructor
  · rintro (rfl | ⟨p, hp, h⟩)
    · cases hr rfl
    · by_cases hp0 : p = 0
      · subst hp0
        exact h
      · have hle := consumed_le_lead hp hp0 (by rw [h]; simp) hr
        omega
  · intro h
    exact .inr ⟨0, by omega, h⟩

theorem endsWhole_append {v l : List UInt8} (hv : Valid v) (hl : l ≠ []) :
    EndsWhole (v ++ l) ↔ EndsWhole l := by
  induction hv with
  | nil => exact Iff.rfl
  | @char v n hfirst hrest ih =>
    have hle : n ≤ v.length := by
      have hcons := first_consumed (l := v) (by rw [hfirst]; simp)
      rw [hfirst] at hcons
      exact hcons.2.1
    have hfirst' := first_append hfirst l
    have hlt : n < (v ++ l).length := by
      have hpos := List.length_pos_iff.mpr hl
      rw [List.length_append]
      omega
    rw [endsWhole_drop (by rw [hfirst']; simp) (by rw [hfirst']; rfl) hlt,
      List.drop_append_of_le_length hle]
    exact ih

theorem endsWhole_valid {v : List UInt8} (hv : Valid v) : EndsWhole v := by
  induction hv with
  | nil => exact .inl rfl
  | @char v n hfirst hrest ih =>
    have hr : first v ≠ .error none := by
      rw [hfirst]
      simp
    have hcons := (first_consumed hr).2.1
    rw [hfirst] at hcons
    simp only [consumed] at hcons
    by_cases hlt : n < v.length
    · rw [endsWhole_drop hr (by rw [hfirst]; rfl) hlt]
      exact ih
    · have hn : n = v.length := by omega
      rw [endsWhole_single hr (by rw [hfirst]; exact hn), hfirst, hn]

/-- What is joined on the console. -/
def joined (parts : List (List UInt8 × Nat)) : List UInt8 :=
  ((parts.map Prod.fst).intersperse [0x3f]).flatten

theorem joined_cons (s : List UInt8) (n : Nat) {parts : List (List UInt8 × Nat)} (h : parts ≠ []) :
    joined ((s, n) :: parts) = s ++ 0x3f :: joined parts := by
  cases parts with
  | nil => exact absurd rfl h
  | cons part parts => simp [joined, List.intersperse_cons_cons]

/-- The question mark that the last invalid sequence is owed. -/
def owed (l : List UInt8) : List UInt8 := if EndsWhole l then [] else [0x3f]

/-- A part and the invalid sequence behind it, before the other parts. -/
theorem Replaced.part {v l : List UInt8} {k : Nat} (n : Nat) {parts : List (List UInt8 × Nat)}
    (hv : Valid v) (hfirst : first l = .error (some k)) (hparts : parts = [] ↔ l.drop k = [])
    (h : Replaced (l.drop k) (joined parts ++ owed (l.drop k))) :
    Replaced (v ++ l) (joined ((v, n) :: parts) ++ owed (v ++ l)) := by
  have hr : first l ≠ .error none := by
    rw [hfirst]
    simp
  have hne : l ≠ [] := by
    rintro rfl
    exact hr rfl
  have hwhole := Replaced.valid hv (Replaced.invalid hfirst h)
  by_cases hlast : l.drop k = []
  · -- the invalid sequence is the last one, and no part follows it
    have hk : consumed (first l) = l.length := by
      have hle := (first_consumed hr).2.1
      rw [hfirst] at hle ⊢
      exact Nat.le_antisymm hle (List.drop_eq_nil_iff.mp hlast)
    have hnot : ¬ EndsWhole (v ++ l) := by
      rw [endsWhole_append hv hne, endsWhole_single hr hk, hfirst]
      simp
    rw [hparts.mpr hlast, hlast, owed, if_pos (.inl rfl)] at hwhole
    rw [hparts.mpr hlast, owed, if_neg hnot]
    simpa [joined] using hwhole
  · have hlt : k < l.length := by
      by_contra hge
      exact hlast (List.drop_eq_nil_iff.mpr (Nat.not_lt.mp hge))
    have howed : owed (v ++ l) = owed (l.drop k) := by
      rw [owed, owed]
      simp only [endsWhole_append hv hne, endsWhole_drop hr (by rw [hfirst]; rfl) hlt]
    rw [joined_cons _ _ (fun hp => hlast (hparts.mp hp)), howed, List.append_assoc]
    exact hwhole

/-- From the index on, the parts give the whole text but for the question mark of an invalid
sequence at the end. -/
theorem parts_replaced (h : ¬ EndsWithin buf) {idx : Nat} (hi : idx ≤ buf.length) :
    ∃ calls parts, utf8ValidParts buf calls idx = some parts ∧
      (parts = [] ↔ buf.drop idx = []) ∧
      Replaced (buf.drop idx) (joined parts ++ owed (buf.drop idx)) := by
  -- on the bytes that are left
  induction hn : buf.length - idx using Nat.strongRecOn generalizing idx with
  | ind n ih =>
    by_cases hnil : buf.drop idx = []
    · have hnext : next buf idx = .finished := by
        rw [next, if_neg (Nat.not_lt.mpr hi), hnil]
        rfl
      refine ⟨1, [], by rw [utf8ValidParts, hnext], by simp [hnil], ?_⟩
      rw [hnil, owed, if_pos (.inl rfl)]
      exact .nil
    cases hu : fromUtf8 (buf.drop idx) with
    | ok s =>
      obtain rfl := fromUtf8_ok hu
      have hv : Valid (buf.drop idx) := fromUtf8_valid.mp (by rw [hu]; rfl)
      have hnext : next buf idx = .part (buf.drop idx) (idx + (buf.drop idx).length) := by
        rw [next, if_neg (Nat.not_lt.mpr hi), hu]
        exact if_neg hnil
      have hend : idx + (buf.drop idx).length = buf.length := by
        rw [List.length_drop]
        omega
      have hlast : next buf buf.length = .finished := by
        rw [next, if_neg (Nat.lt_irrefl _), List.drop_length]
        rfl
      refine ⟨2, [(buf.drop idx, buf.length - idx)], ?_, by simp [hnil], ?_⟩
      · rw [utf8ValidParts, hnext, hend]
        simp [utf8ValidParts, hlast]
      · rw [owed, if_pos (endsWhole_valid hv)]
        have hkept := Replaced.valid hv .nil
        rw [List.append_nil] at hkept
        simpa [joined] using hkept
    | error e =>
      obtain ⟨hlt, hfirst, hpart⟩ := fromUtf8_error hu
      have hv : Valid ((buf.drop idx).take e.validUpTo) := fromUtf8_valid.mp (by rw [hpart]; rfl)
      rw [List.length_drop] at hlt
      rw [List.drop_drop] at hfirst
      cases hk : e.errorLen with
      | none =>
        rw [hk] at hfirst
        exact absurd ⟨idx + e.validUpTo, by omega, hfirst⟩ h
      | some k =>
        rw [hk] at hfirst
        have hcons := first_consumed (l := buf.drop (idx + e.validUpTo)) (by rw [hfirst]; simp)
        rw [hfirst] at hcons
        simp only [consumed, List.length_drop] at hcons
        have hnext : next buf idx =
            .part ((buf.drop idx).take e.validUpTo) (idx + e.validUpTo + k) := by
          rw [next, if_neg (Nat.not_lt.mpr hi), hu]
          simp only [hpart, hk, Option.getD_some, Nat.add_assoc]
        have hsplit := List.take_append_drop e.validUpTo (buf.drop idx)
        rw [List.drop_drop] at hsplit
        obtain ⟨calls, parts, hparts, hempty, hrep⟩ :=
          ih (buf.length - (idx + e.validUpTo + k)) (by omega) (by omega) rfl
        rw [← List.drop_drop] at hempty hrep
        refine ⟨calls + 1, ((buf.drop idx).take e.validUpTo, idx + e.validUpTo + k - idx) :: parts,
          ?_, by simp [hnil], ?_⟩
        · rw [utf8ValidParts, hnext]
          simp only [hparts, Option.map_some]
        · have hwhole := Replaced.part (idx + e.validUpTo + k - idx) hv hfirst hempty hrep
          rw [hsplit] at hwhole
          exact hwhole

theorem parts_unique {calls calls' idx : Nat} {parts parts' : List (List UInt8 × Nat)}
    (h : utf8ValidParts buf calls idx = some parts)
    (h' : utf8ValidParts buf calls' idx = some parts') : parts = parts' := by
  induction calls generalizing calls' idx parts parts' with
  | zero => cases h
  | succ calls ih =>
    cases calls' with
    | zero => cases h'
    | succ calls' =>
      rw [utf8ValidParts] at h h'
      cases hnext : next buf idx with
      | finished =>
        rw [hnext] at h h'
        cases h
        cases h'
        rfl
      | panic =>
        rw [hnext] at h
        cases h
      | part s idx' =>
        rw [hnext] at h h'
        obtain ⟨rest, hrest, rfl⟩ := Option.map_eq_some_iff.mp h
        obtain ⟨rest', hrest', rfl⟩ := Option.map_eq_some_iff.mp h'
        rw [ih hrest hrest']

/-- The question marks stand between the parts: each invalid sequence has its own one, except
for one at the very end. -/
theorem sends_replaced_iff (h : ¬ EndsWithin buf) : SendsReplaced buf ↔ EndsWhole buf := by
  obtain ⟨calls, parts, hparts, -, hrep⟩ := parts_replaced h (Nat.zero_le _)
  rw [List.drop_zero] at hrep
  constructor
  · rintro ⟨calls', text, hwrite, htext⟩
    obtain ⟨parts', hparts', hjoined⟩ := Option.map_eq_some_iff.mp hwrite
    cases hjoined
    obtain rfl := parts_unique hparts' hparts
    by_contra hend
    have hsame : joined parts' = joined parts' ++ owed buf := Replaced.unique htext hrep
    rw [owed, if_neg hend] at hsame
    have hlen := congrArg List.length hsame
    simp at hlen
  · intro hend
    rw [owed, if_pos hend, List.append_nil] at hrep
    refine ⟨calls, joined parts, ?_, hrep⟩
    rw [writeConsole, hparts]
    rfl

/-- An invalid byte within the text is replaced. -/
theorem sends_replaced_inside : SendsReplaced [0xff, 0xff, 0x41] :=
  (sends_replaced_iff (by decide)).mpr (by decide)

/-- The one at the end is lost. -/
theorem last_invalid_lost :
    ¬ EndsWithin [0x41, 0xff] ∧ ¬ SendsReplaced [0x41, 0xff] ∧
      writeConsole [0x41, 0xff] 3 = some ([0x41], 2) := by
  refine ⟨by decide, ?_, by decide⟩
  rintro ⟨calls, text, hwrite, htext⟩
  have hparts : utf8ValidParts [0x41, 0xff] 2 0 = some [([0x41], 2)] := by decide
  obtain ⟨parts, hparts', hjoined⟩ := Option.map_eq_some_iff.mp hwrite
  cases hjoined
  obtain rfl := parts_unique hparts' hparts
  have hrep : Replaced [0x41, 0xff] [0x41, 0x3f] :=
    Replaced.char (n := 1) (by decide) (Replaced.invalid (n := 1) (by decide) .nil)
  exact absurd (htext.unique hrep) (by decide)

end Crabos.Util
