import Mathlib

/-!
# Runs of a partial step function

A system is a state type, an event type and a partial step; an event that is
not enabled has no successor. Nothing here bounds the length of a run, and a
condition on events may also read the state in which the event is taken.
-/
namespace Crabos.Run

variable {σ ι : Type}

/-- Take the events in order; `none` as soon as one of them is not enabled. -/
def run (step : σ → ι → Option σ) : σ → List ι → Option σ
  | s, [] => some s
  | s, a :: as => (step s a).bind fun t => run step t as

@[simp] theorem run_nil (step : σ → ι → Option σ) (s : σ) : run step s [] = some s := rfl

theorem run_cons (step : σ → ι → Option σ) (s : σ) (a : ι) (as : List ι) :
    run step s (a :: as) = (step s a).bind fun t => run step t as := rfl

theorem run_append (step : σ → ι → Option σ) (s : σ) (as bs : List ι) :
    run step s (as ++ bs) = (run step s as).bind fun t => run step t bs := by
  induction as generalizing s with
  | nil => rfl
  | cons a as ih =>
    rw [List.cons_append, run_cons, run_cons]
    cases step s a with
    | none => rfl
    | some t => exact ih t

/-- Every event of the run meets `C` in the state in which it is taken. -/
def Along (step : σ → ι → Option σ) (C : σ → ι → Prop) : σ → List ι → Prop
  | _, [] => True
  | s, a :: as => C s a ∧
    match step s a with
    | none => True
    | some t => Along step C t as

def decidableAlong (step : σ → ι → Option σ) (C : σ → ι → Prop) [∀ s a, Decidable (C s a)] :
    (s : σ) → (as : List ι) → Decidable (Along step C s as)
  | _, [] => inferInstanceAs (Decidable True)
  | s, a :: as =>
    match h : step s a with
    | none => decidable_of_iff (C s a) (by simp [Along, h])
    | some t =>
      have := decidableAlong step C t as
      decidable_of_iff (C s a ∧ Along step C t as) (by simp [Along, h])

instance (step : σ → ι → Option σ) (C : σ → ι → Prop) [∀ s a, Decidable (C s a)] (s : σ)
    (as : List ι) : Decidable (Along step C s as) := decidableAlong step C s as

theorem along_cons {step : σ → ι → Option σ} {C : σ → ι → Prop} {s t : σ} {a : ι} {as : List ι}
    (h : Along step C s (a :: as)) (hs : step s a = some t) : Along step C t as := by
  have h₂ := h.2
  rwa [hs] at h₂

/-- The invariant rule for runs whose events all meet a condition. -/
theorem invariant_along {step : σ → ι → Option σ} {C : σ → ι → Prop} {I : σ → Prop}
    (hstep : ∀ s a t, I s → C s a → step s a = some t → I t)
    {s t : σ} {as : List ι} (hs : I s) (hc : Along step C s as) (hr : run step s as = some t) :
    I t := by
  induction as generalizing s with
  | nil =>
    cases hr
    exact hs
  | cons a as ih =>
    rw [run_cons] at hr
    cases ha : step s a with
    | none => rw [ha] at hr; cases hr
    | some u =>
      rw [ha] at hr
      exact ih (hstep s a u hs hc.1 ha) (along_cons hc ha) hr

theorem along_left {step : σ → ι → Option σ} {C : σ → ι → Prop} {s : σ} {as bs : List ι}
    (h : Along step C s (as ++ bs)) : Along step C s as := by
  induction as generalizing s with
  | nil => trivial
  | cons a as ih =>
    refine ⟨h.1, ?_⟩
    have h₂ := h.2
    cases hs : step s a with
    | none => trivial
    | some t =>
      simp only [hs] at h₂
      exact ih h₂

theorem along_right {step : σ → ι → Option σ} {C : σ → ι → Prop} {s t : σ} {as bs : List ι}
    (h : Along step C s (as ++ bs)) (hr : run step s as = some t) : Along step C t bs := by
  induction as generalizing s with
  | nil =>
    cases hr
    exact h
  | cons a as ih =>
    rw [run_cons] at hr
    obtain ⟨u, hu, hr⟩ := Option.bind_eq_some_iff.mp hr
    exact ih (along_cons h hu) hr

theorem along_of_forall {step : σ → ι → Option σ} {C : σ → ι → Prop} (s : σ) (as : List ι)
    (h : ∀ s, ∀ a ∈ as, C s a) : Along step C s as := by
  induction as generalizing s with
  | nil => trivial
  | cons a as ih =>
    refine ⟨h s a (by simp), ?_⟩
    cases step s a with
    | none => trivial
    | some t => exact ih t fun u b hb => h u b (by simp [hb])

/-- The invariant rule: what every step keeps, every run keeps. -/
theorem invariant {step : σ → ι → Option σ} {I : σ → Prop}
    (hstep : ∀ s a t, I s → step s a = some t → I t)
    {s t : σ} {as : List ι} (hs : I s) (hr : run step s as = some t) : I t :=
  invariant_along (C := fun _ _ => True) (fun s a t hi _ => hstep s a t hi) hs
    (along_of_forall s as fun _ _ _ => trivial) hr

/-- A property that a step keeps exactly when it meets the condition holds in
every state of a run exactly when all events meet the condition. -/
theorem always_iff_along {step : σ → ι → Option σ} {C : σ → ι → Prop} {I P : σ → Prop}
    (hstep : ∀ s a t, I s → P s → step s a = some t → I t ∧ (P t ↔ C s a)) {s t : σ} {as : List ι}
    (hi : I s) (hp : P s) (hr : run step s as = some t) :
    (∀ bs cs u, as = bs ++ cs → run step s bs = some u → P u) ↔ Along step C s as := by
  induction as generalizing s with
  | nil =>
    refine ⟨fun _ => trivial, fun _ bs cs u hbs hu => ?_⟩
    obtain ⟨rfl, -⟩ := List.append_eq_nil_iff.mp hbs.symm
    cases hu
    exact hp
  | cons a as ih =>
    rw [run_cons] at hr
    obtain ⟨v, hv, hr⟩ := Option.bind_eq_some_iff.mp hr
    obtain ⟨hiv, hpv⟩ := hstep s a v hi hp hv
    constructor
    · intro h
      have hv' : run step s [a] = some v := by
        rw [run_cons, hv]
        rfl
      have hpv' := h [a] as v rfl hv'
      refine ⟨hpv.mp hpv', ?_⟩
      rw [hv]
      refine (ih hiv hpv' hr).mp fun bs cs u hbs hu => h (a :: bs) cs u (congrArg _ hbs) ?_
      rw [run_cons, hv]
      exact hu
    · intro h bs cs u hbs hu
      cases bs with
      | nil =>
        cases hu
        exact hp
      | cons b bs =>
        cases hbs
        rw [run_cons, hv] at hu
        exact (ih hiv (hpv.mpr h.1) hr).mpr (along_cons h hv) bs cs u rfl hu

/-- A preorder that every step of the run keeps relates its two ends. -/
theorem run_rel {step : σ → ι → Option σ} {R : σ → σ → Prop} (hrefl : ∀ s, R s s)
    (htrans : ∀ s t u, R s t → R t u → R s u) {s t : σ} {as : List ι}
    (hstep : ∀ a ∈ as, ∀ s t, step s a = some t → R s t) (hr : run step s as = some t) : R s t := by
  induction as generalizing s with
  | nil =>
    cases hr
    exact hrefl _
  | cons a as ih =>
    rw [run_cons] at hr
    obtain ⟨u, hu, hr⟩ := Option.bind_eq_some_iff.mp hr
    exact htrans s u t (hstep a List.mem_cons_self s u hu)
      (ih (fun b hb => hstep b (List.mem_cons_of_mem _ hb)) hr)

/-- A run of concrete states is followed by states of another type, if each
step is, and a preorder that these keep relates their ends. -/
theorem run_follow {α : Type} {step : σ → ι → Option σ} {f : α → σ} {P : α → Prop}
    {R : α → α → Prop} (hrefl : ∀ w, R w w) (htrans : ∀ u v w, R u v → R v w → R u w) {w : α} {t : σ}
    {as : List ι} (hstep : ∀ a ∈ as, ∀ w t, P w → step (f w) a = some t →
      ∃ w', f w' = t ∧ P w' ∧ R w w')
    (hw : P w) (hr : run step (f w) as = some t) : ∃ w', f w' = t ∧ P w' ∧ R w w' := by
  induction as generalizing w with
  | nil =>
    cases hr
    exact ⟨w, rfl, hw, hrefl w⟩
  | cons a as ih =>
    rw [run_cons] at hr
    obtain ⟨u, hu, hr⟩ := Option.bind_eq_some_iff.mp hr
    obtain ⟨w₁, rfl, hw₁, hr₁⟩ := hstep a List.mem_cons_self w u hw hu
    obtain ⟨w₂, he, hw₂, hr₂⟩ := ih (fun b hb => hstep b (List.mem_cons_of_mem _ hb)) hw₁ hr
    exact ⟨w₂, he, hw₂, htrans _ _ _ hr₁ hr₂⟩

/-- A run on concrete events can be evaluated up to a decidable property of its end. -/
theorem exists_of_any {step : σ → ι → Option σ} {s : σ} {as : List ι} {p : σ → Bool}
    (h : (run step s as).any p = true) : ∃ t, run step s as = some t ∧ p t = true := by
  cases hr : run step s as with
  | none => rw [hr] at h; cases h
  | some t =>
    rw [hr] at h
    exact ⟨t, rfl, h⟩

end Crabos.Run
