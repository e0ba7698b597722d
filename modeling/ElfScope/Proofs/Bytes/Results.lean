import Mathlib
import ElfScope.Bytes.Decoder

/-! # What is given by computations that can fail

A property of whatever a decoder gives, composed as the decoder is. No such property says that the
decoder gives anything.
-/
namespace ElfScope

theorem Except.bind_eq_ok {ε α β : Type} {x : Except ε α} {f : α → Except ε β} {b : β} :
    (x >>= f) = .ok b ↔ ∃ a, x = .ok a ∧ f a = .ok b := by
  cases x with
  | error e => simp [bind, Except.bind]
  | ok a => simp [bind, Except.bind]

namespace Decoder
variable {α β : Type}

/-- Whatever the decoder gives has a property. -/
def Yields (d : Decoder α) (Q : α → Prop) : Prop := ∀ bs a rest, d.run bs = .ok (a, rest) → Q a

variable {Q : α → Prop} {R : β → Prop}

theorem yields_pure {a : α} (h : Q a) : Yields (pure a : Decoder α) Q := by
  intro bs b rest hb
  cases hb
  exact h

theorem yields_throw_bind (e : Shortage) (f : α → Decoder β) :
    Yields ((throw e : Decoder α) >>= f) R := by
  intro bs b rest hb
  cases hb

theorem Yields.bind {d : Decoder α} {f : α → Decoder β} (hd : Yields d Q)
    (hf : ∀ a, Q a → Yields (f a) R) : Yields (d >>= f) R := by
  intro bs b rest hb
  rw [StateT.run_bind] at hb
  cases hr : d.run bs with
  | error e =>
    rw [hr] at hb
    cases hb
  | ok r =>
    rw [hr] at hb
    exact hf r.1 (hd bs r.1 r.2 hr) r.2 b rest hb

theorem yields_bind {d : Decoder α} {f : α → Decoder β} (h : ∀ a, Yields (f a) R) :
    Yields (d >>= f) R :=
  Yields.bind (Q := fun _ => True) (fun _ _ _ _ => trivial) fun a _ => h a

theorem Yields.ite {c : Prop} [Decidable c] {d d' : Decoder α} (h : c → Yields d Q)
    (h' : ¬c → Yields d' Q) : Yields (if c then d else d') Q := by
  split_ifs with hc
  · exact h hc
  · exact h' hc

theorem yields_take (n : Nat) : (take n).Yields fun bs => bs.length = n := by
  intro bs a rest h
  change (if (bs.take n).length = n then Except.ok (bs.take n, bs.drop n) else _) = _ at h
  split_ifs at h with hlength
  · cases h
    exact hlength

theorem yields_number (order : ByteOrder) (width : Nat) :
    (number order width).Yields (· < Bytes.limit width) := by
  refine (yields_take width).bind ?_
  rintro bs rfl
  refine yields_pure ?_
  cases order with
  | little => exact Bytes.littleValue_lt bs
  | big =>
    have hlt := Bytes.littleValue_lt bs.reverse
    rwa [List.length_reverse] at hlt

/-- What is decoded at an offset is something that the decoder gives. -/
theorem Yields.valueAt {d : Decoder α} (hd : Yields d Q) {bs : Bytes} {offset : Nat} {a : α}
    (h : d.valueAt bs offset = .ok a) : Q a := by
  unfold Decoder.valueAt at h
  cases hrun : d.runAt bs offset with
  | error e =>
    rw [hrun] at h
    cases h
  | ok r =>
    rw [hrun] at h
    cases h
    exact hd _ r.1 r.2 hrun

end Decoder

end ElfScope
