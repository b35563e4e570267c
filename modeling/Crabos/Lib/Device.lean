import Mathlib

/-!
# Programs that talk to a device

A program writes to a bus and reads from it what a device replies. The device
may be anything: it is the row of its replies, and a program that needs more of
them has not returned. All that goes over the bus is logged. A monitor reads the
log and may refuse it, and a triple says that it does not, and what it has seen.
-/
namespace Crabos.Device

variable {ρ ε η α β : Type}

structure Bus (ρ ε : Type) where
  replies : List ρ
  log : List ε

abbrev Prog (ρ ε : Type) := StateT (Bus ρ ε) Option

def ask (entry : ρ → ε) : Prog ρ ε ρ := fun b =>
  match b.replies with
  | [] => none
  | r :: rs => some (r, ⟨rs, b.log ++ [entry r]⟩)

def tell (e : ε) : Prog ρ ε Unit := fun b => some ((), ⟨b.replies, b.log ++ [e]⟩)

def pollReplies (entry : ρ → ε) (f : ρ → Option α) (log : List ε) : List ρ → Option (α × Bus ρ ε)
  | [] => none
  | r :: rs =>
    match f r with
    | some a => some (a, ⟨rs, log ++ [entry r]⟩)
    | none => pollReplies entry f (log ++ [entry r]) rs

/-- Ask until a reply is good. -/
def poll (entry : ρ → ε) (f : ρ → Option α) : Prog ρ ε α := fun b => pollReplies entry f b.log b.replies

/-- If the program returns, the monitor takes what it has logged, from any state
in `P` to a state in `Q`. -/
def Triple (see : η → ε → Option η) (P : η → Prop) (x : Prog ρ ε α) (Q : α → η → Prop) : Prop :=
  ∀ b a b', x b = some (a, b') →
    ∃ io, b'.log = b.log ++ io ∧ ∀ h, P h → ∃ h', io.foldlM see h = some h' ∧ Q a h'

variable {see : η → ε → Option η} {P P' : η → Prop} {Q Q' : α → η → Prop} {R : β → η → Prop}

theorem Triple.pure {a : α} (h : ∀ s, P s → Q a s) : Triple see P (Pure.pure a : Prog ρ ε α) Q := by
  intro b x b' hx
  cases hx
  exact ⟨[], by simp, fun s hs => ⟨s, rfl, h s hs⟩⟩

theorem Triple.bind {x : Prog ρ ε α} {f : α → Prog ρ ε β} (hx : Triple see P x Q)
    (hf : ∀ a, Triple see (Q a) (f a) R) : Triple see P (x >>= f) R := by
  intro b y b'' h
  obtain ⟨⟨a, b'⟩, hxb, hfb⟩ := Option.bind_eq_some_iff.mp (show (x b).bind (fun p => f p.1 p.2) = _ from h)
  obtain ⟨io₁, hlog₁, hsee₁⟩ := hx b a b' hxb
  obtain ⟨io₂, hlog₂, hsee₂⟩ := hf a b' y b'' hfb
  refine ⟨io₁ ++ io₂, by rw [hlog₂, hlog₁, List.append_assoc], fun s hs => ?_⟩
  obtain ⟨s₁, hrun₁, hq⟩ := hsee₁ s hs
  obtain ⟨s₂, hrun₂, hr⟩ := hsee₂ s₁ hq
  exact ⟨s₂, by simp [List.foldlM_append, hrun₁, hrun₂], hr⟩

theorem Triple.weaken {x : Prog ρ ε α} (hx : Triple see P x Q) (hp : ∀ s, P' s → P s)
    (hq : ∀ a s, Q a s → Q' a s) : Triple see P' x Q' := by
  intro b a b' h
  obtain ⟨io, hlog, hsee⟩ := hx b a b' h
  refine ⟨io, hlog, fun s hs => ?_⟩
  obtain ⟨s', hrun, hqs⟩ := hsee s (hp s hs)
  exact ⟨s', hrun, hq a s' hqs⟩

/-- A run from the start of a log. -/
theorem Triple.run {x : Prog ρ ε α} (hx : Triple see P x Q) {replies : List ρ} {a : α} {b : Bus ρ ε}
    (h : x ⟨replies, []⟩ = some (a, b)) {s : η} (hs : P s) :
    ∃ s', b.log.foldlM see s = some s' ∧ Q a s' := by
  obtain ⟨io, hlog, hsee⟩ := hx _ a b h
  rw [hlog]
  exact hsee s hs

theorem Triple.ask {entry : ρ → ε} {Q : ρ → η → Prop}
    (h : ∀ r s, P s → ∃ s', see s (entry r) = some s' ∧ Q r s') :
    Triple see P (ask entry) Q := by
  intro b r b' hb
  rw [Device.ask] at hb
  split at hb
  · cases hb
  · cases hb
    refine ⟨[entry r], rfl, fun s hs => ?_⟩
    obtain ⟨s', hsee, hq⟩ := h r s hs
    exact ⟨s', by simp [hsee], hq⟩

theorem Triple.tell {e : ε} {Q : Unit → η → Prop} (h : ∀ s, P s → ∃ s', see s e = some s' ∧ Q () s') :
    Triple see P (tell e : Prog ρ ε Unit) Q := by
  intro b r b' hb
  cases hb
  refine ⟨[e], rfl, fun s hs => ?_⟩
  obtain ⟨s', hsee, hq⟩ := h s hs
  exact ⟨s', by simp [hsee], hq⟩

/-- The rule for polling: an invariant while the replies are no good. -/
theorem Triple.poll {entry : ρ → ε} {f : ρ → Option α}
    (hwait : ∀ r s, f r = none → P s → ∃ s', see s (entry r) = some s' ∧ P s')
    (hdone : ∀ r a s, f r = some a → P s → ∃ s', see s (entry r) = some s' ∧ Q a s') :
    Triple see P (poll entry f) Q := by
  rintro ⟨replies, log⟩ a b' hb
  change pollReplies entry f log replies = some (a, b') at hb
  induction replies generalizing log with
  | nil => cases hb
  | cons r rs ih =>
    rw [pollReplies] at hb
    split at hb
    · rename_i hf
      cases hb
      refine ⟨[entry r], rfl, fun s hs => ?_⟩
      obtain ⟨s', hsee, hq⟩ := hdone r _ s hf hs
      exact ⟨s', by simp [hsee], hq⟩
    · rename_i hf
      obtain ⟨io, hlog, hsee⟩ := ih _ hb
      refine ⟨entry r :: io, by simpa using hlog, fun s hs => ?_⟩
      obtain ⟨s₁, hstep, hp⟩ := hwait r s hf hs
      obtain ⟨s₂, hrun, hq⟩ := hsee s₁ hp
      exact ⟨s₂, by simp [hstep, hrun], hq⟩

/-- The rule for counted loops. -/
theorem Triple.foldRange {I : Nat → β → η → Prop} {f : β → Nat → Prog ρ ε β} {n : Nat}
    (h : ∀ k < n, ∀ x, Triple see (I k x) (f x k) (I (k + 1))) (x : β) :
    Triple see (I 0 x) ((List.range n).foldlM f x) (I n) := by
  induction n with
  | zero => exact Triple.pure fun s hs => hs
  | succ n ih =>
    rw [List.range_succ, List.foldlM_append]
    apply Triple.bind (ih fun k hk => h k (Nat.lt_succ_of_lt hk))
    intro y
    rw [List.foldlM_cons]
    exact (h n (Nat.lt_succ_self n) y).bind fun z => Triple.pure fun s hs => hs

end Crabos.Device
