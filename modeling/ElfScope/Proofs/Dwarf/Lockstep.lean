import Mathlib
import ElfScope.Proofs.Dwarf.Plain

/-! # Runs side by side

What one run does tells what another one does, on states and with values that correspond to those of
the first. It tells so where the first run ends, and comes to no state that is not wanted.
-/
namespace ElfScope.Dwarf

/-- The states that are wanted, and those that correspond to one another. -/
structure Pairing (σ : Type) where
  clean : σ → Prop
  like : σ → σ → Prop

namespace Pairing
variable {σ α α' β β' : Type}

/-- Two actions do the same on states that correspond, up to a function of the values. An action comes
to a clean state from clean ones only. -/
structure Agrees (g : Pairing σ) (p : Prop) (act : EStateM Failure σ α)
    (act' : EStateM Failure σ α') (f : α → α') (Q : α → Prop) : Prop where
  clean : ∀ st, g.clean (outcome act st).2 → g.clean st
  agrees : p → ∀ st st', g.like st st' → g.clean (outcome act st).2 →
    (outcome act st).1 ≠ .error .endless → ∃ st'',
      outcome act' st' = ((outcome act st).1.map f, st'') ∧ g.like (outcome act st).2 st'' ∧
        ∀ a, (outcome act st).1 = .ok a → Q a

variable {g : Pairing σ} {p : Prop} {act : EStateM Failure σ α} {act' : EStateM Failure σ α'}
  {f : α → α'} {Q : α → Prop}

theorem agrees_pure {a : α} {a' : α'} (ha : f a = a') (h : p → Q a) :
    g.Agrees p (pure a) (pure a') f Q where
  clean _ hc := hc
  agrees hp st st' hl _ _ := by
    subst ha
    refine ⟨st', rfl, hl, fun b hb => ?_⟩
    cases hb
    exact h hp

theorem agrees_throw (e : Failure) :
    g.Agrees p (throw e : EStateM Failure σ α) (throw e : EStateM Failure σ α') f Q where
  clean _ hc := hc
  agrees _ st st' hl _ _ := ⟨st', rfl, hl, fun _ hb => by cases hb⟩

theorem agrees_endless : g.Agrees p (throw .endless : EStateM Failure σ α) act' f Q where
  clean _ hc := hc
  agrees _ _ _ _ _ hne := absurd rfl hne

theorem Agrees.mono {p' : Prop} {Q' : α → Prop} (h : g.Agrees p act act' f Q) (hp : p' → p)
    (hQ : ∀ a, Q a → Q' a) : g.Agrees p' act act' f Q' where
  clean := h.clean
  agrees hp' st st' hl hc hne := by
    obtain ⟨st'', hrun, hl', hgives⟩ := h.agrees (hp hp') st st' hl hc hne
    exact ⟨st'', hrun, hl', fun a ha => hQ a (hgives a ha)⟩

/-- Nothing has to be known before. -/
theorem Agrees.always (h : g.Agrees True act act' f Q) : g.Agrees p act act' f Q :=
  h.mono (fun _ => trivial) fun _ => id

theorem Agrees.bind {next : α → EStateM Failure σ β} {next' : α' → EStateM Failure σ β'}
    {f' : β → β'} {R : β → Prop} (h : g.Agrees p act act' f Q)
    (hnext : ∀ a, g.Agrees (p ∧ Q a) (next a) (next' (f a)) f' R) :
    g.Agrees p (act >>= next) (act' >>= next') f' R := by
  constructor
  · intro st hc
    rw [outcome_bind] at hc
    refine h.clean st ?_
    rcases hr : outcome act st with ⟨e | a, st₁⟩ <;> rw [hr] at hc
    · exact hc
    · exact (hnext a).clean st₁ hc
  · intro hp st st' hl hc hne
    have hact := h.agrees hp st st' hl
    rw [outcome_bind] at hc hne
    rw [outcome_bind, outcome_bind]
    rcases hr : outcome act st with ⟨e | a, st₁⟩ <;> rw [hr] at hc hne hact
    · obtain ⟨st'', hrun, hl', -⟩ := hact hc fun he => hne (by cases he; rfl)
      rw [hrun]
      exact ⟨st'', rfl, hl', fun _ hb => by cases hb⟩
    · obtain ⟨st'', hrun, hl', hgives⟩ := hact ((hnext a).clean st₁ hc) fun he => by cases he
      rw [hrun]
      exact (hnext a).agrees ⟨hp, hgives a rfl⟩ st₁ st'' hl' hc hne

/-- Nothing needs to be known of the first value. -/
theorem Agrees.andThen {next : α → EStateM Failure σ β} {next' : α' → EStateM Failure σ β'}
    {f' : β → β'} {R : β → Prop} (h : g.Agrees p act act' f Q)
    (hnext : ∀ a, g.Agrees True (next a) (next' (f a)) f' R) :
    g.Agrees p (act >>= next) (act' >>= next') f' R :=
  h.bind fun a => (hnext a).always

theorem Agrees.ite {c : Prop} [Decidable c] {alt : EStateM Failure σ α}
    {alt' : EStateM Failure σ α'} (h : c → g.Agrees p act act' f Q)
    (h' : ¬c → g.Agrees p alt alt' f Q) :
    g.Agrees p (if c then act else alt) (if c then act' else alt') f Q := by
  by_cases hc : c
  · rw [if_pos hc, if_pos hc]
    exact h hc
  · rw [if_neg hc, if_neg hc]
    exact h' hc

theorem agrees_modify {change change' : σ → σ} (hclean : ∀ st, g.clean (change st) → g.clean st)
    (hlike : ∀ st st', g.like st st' → g.like (change st) (change' st')) :
    g.Agrees p (modify change : EStateM Failure σ Unit) (modify change') id fun _ => True where
  clean := hclean
  agrees _ st st' hl _ _ := ⟨change' st', rfl, hlike st st' hl, fun _ _ => trivial⟩

theorem agrees_forM {xs : List β} {k : β → β'} {each : β → EStateM Failure σ Unit}
    {each' : β' → EStateM Failure σ Unit}
    (h : ∀ x ∈ xs, g.Agrees p (each x) (each' (k x)) id fun _ => True) :
    g.Agrees p (xs.forM each) ((xs.map k).forM each') id fun _ => True := by
  induction xs with
  | nil => exact agrees_pure rfl fun _ => trivial
  | cons x xs ih =>
    obtain ⟨hx, hxs⟩ := List.forall_mem_cons.mp h
    exact hx.bind fun _ => (ih hxs).mono And.left fun _ => id

theorem agrees_foldlM {xs : List α} {step : β → α → EStateM Failure σ β}
    (h : ∀ b x, g.Agrees True (step b x) (step b x) id fun _ => True) (b : β) :
    g.Agrees True (xs.foldlM step b) (xs.foldlM step b) id fun _ => True := by
  induction xs generalizing b with
  | nil => exact agrees_pure rfl fun _ => trivial
  | cons x xs ih =>
    rw [List.foldlM_cons]
    exact (h b x).andThen ih

end Pairing

end ElfScope.Dwarf
