import Mathlib
import ElfScope.Proofs.Bytes.Reads

/-! # Decoders that look at nothing but what they take

What such a decoder gives is decided by the bytes that it takes, so it gives the same before any other
bytes that may follow these.
-/
namespace ElfScope

namespace Decoder
variable {α β : Type}

/-- Where the decoder gives a value it has read some bytes at the front as this value. -/
def Local (d : Decoder α) : Prop :=
  ∀ bs a rest, d.run bs = .ok (a, rest) → ∃ front, bs = front ++ rest ∧ Reads d front a

theorem local_pure (a : α) : Local (pure a : Decoder α) := by
  intro bs b rest h
  cases h
  exact ⟨[], rfl, reads_pure a⟩

theorem local_throw (e : Shortage) : Local (throw e : Decoder α) := by
  intro bs a rest h
  cases h

theorem local_throw_bind (e : Shortage) (f : α → Decoder β) :
    Local ((throw e : Decoder α) >>= f) := by
  intro bs b rest h
  cases h

theorem Local.bind {d : Decoder α} {f : α → Decoder β} (hd : Local d) (hf : ∀ a, Local (f a)) :
    Local (d >>= f) := by
  intro bs b rest h
  rw [StateT.run_bind] at h
  cases hr : d.run bs with
  | error e =>
    rw [hr] at h
    cases h
  | ok r =>
    rw [hr] at h
    obtain ⟨front, hfront, hread⟩ := hd bs r.1 r.2 hr
    obtain ⟨more, hmore, hread'⟩ := hf r.1 r.2 b rest h
    exact ⟨front ++ more, by rw [hfront, hmore, List.append_assoc], hread.bind hread'⟩

theorem Local.ite {c : Prop} [Decidable c] {d d' : Decoder α} (h : c → Local d)
    (h' : ¬c → Local d') : Local (if c then d else d') := by
  split_ifs with hc
  · exact h hc
  · exact h' hc

theorem local_take (n : Nat) : Local (take n) := by
  intro bs front rest h
  change take n bs = _ at h
  unfold take at h
  simp only at h
  split_ifs at h with hn
  cases h
  refine ⟨bs.take n, (List.take_append_drop n bs).symm, ?_⟩
  have hread := reads_take (bs.take n)
  rw [hn] at hread
  exact hread

theorem local_number (order : ByteOrder) (width : Nat) : Local (number order width) :=
  (local_take width).bind fun _ => local_pure _

theorem beforeNul?_eq_some {bs s : Bytes} (h : bs.beforeNul? = some s) :
    (0 : UInt8) ∉ s ∧ bs = s ++ [0] ++ bs.drop (s.length + 1) := by
  induction bs generalizing s with
  | nil => cases h
  | cons b bs ih =>
    rw [Bytes.beforeNul?] at h
    by_cases hb : b = 0
    · rw [if_pos hb] at h
      cases h
      exact ⟨List.not_mem_nil, by rw [hb]; rfl⟩
    · rw [if_neg hb] at h
      obtain ⟨s, hs, rfl⟩ := Option.map_eq_some_iff.mp h
      obtain ⟨hnul, hbs⟩ := ih hs
      refine ⟨fun h => ?_, congrArg (b :: ·) hbs⟩
      rcases List.mem_cons.mp h with h | h
      · exact hb h.symm
      · exact hnul h

theorem local_nulTerminated : Local nulTerminated := by
  intro bs s rest h
  change nulTerminated bs = _ at h
  unfold nulTerminated at h
  cases hs : bs.beforeNul? with
  | none =>
    rw [hs] at h
    cases h
  | some s =>
    rw [hs] at h
    cases h
    obtain ⟨hnul, hbs⟩ := beforeNul?_eq_some hs
    exact ⟨s ++ [0], hbs, reads_nulTerminated hnul⟩

end Decoder

/-! ### Numbers of varying length -/

namespace Leb128

theorem unsigned?_local {bs rest : Bytes} {n : Nat} (h : unsigned? bs = some (n, rest)) :
    ∃ front, bs = front ++ rest ∧ front ≠ [] ∧
      ∀ tail, unsigned? (front ++ tail) = some (n, tail) := by
  induction bs generalizing n with
  | nil => cases h
  | cons b bs ih =>
    rw [unsigned?] at h
    by_cases hb : b.toNat < 128
    · rw [if_pos hb] at h
      cases h
      refine ⟨[b], rfl, List.cons_ne_nil _ _, fun tail => ?_⟩
      rw [List.singleton_append, unsigned?, if_pos hb]
    · rw [if_neg hb] at h
      obtain ⟨⟨k, tail⟩, hk, heq⟩ := Option.map_eq_some_iff.mp h
      cases heq
      obtain ⟨front, rfl, -, hread⟩ := ih hk
      refine ⟨b :: front, rfl, List.cons_ne_nil _ _, fun tail => ?_⟩
      rw [List.cons_append, unsigned?, if_neg hb, hread]
      rfl

theorem signed?_local {bs rest : Bytes} {n : Int} (h : signed? bs = some (n, rest)) :
    ∃ front, bs = front ++ rest ∧ ∀ tail, signed? (front ++ tail) = some (n, tail) := by
  induction bs generalizing n with
  | nil => cases h
  | cons b bs ih =>
    rw [signed?] at h
    by_cases hb : b.toNat < 64
    · rw [if_pos hb] at h
      cases h
      refine ⟨[b], rfl, fun tail => ?_⟩
      rw [List.singleton_append, signed?, if_pos hb]
    · rw [if_neg hb] at h
      by_cases hb' : b.toNat < 128
      · rw [if_pos hb'] at h
        cases h
        refine ⟨[b], rfl, fun tail => ?_⟩
        rw [List.singleton_append, signed?, if_neg hb, if_pos hb']
      · rw [if_neg hb'] at h
        obtain ⟨⟨k, tail⟩, hk, heq⟩ := Option.map_eq_some_iff.mp h
        cases heq
        obtain ⟨front, rfl, hread⟩ := ih hk
        refine ⟨b :: front, rfl, fun tail => ?_⟩
        rw [List.cons_append, signed?, if_neg hb, if_neg hb', hread]
        rfl

open Decoder

theorem local_unsigned : Local unsigned := by
  intro bs n rest h
  change unsigned bs = _ at h
  unfold unsigned at h
  cases hr : unsigned? bs with
  | none =>
    rw [hr] at h
    cases h
  | some r =>
    rw [hr] at h
    cases h
    obtain ⟨front, hfront, -, hread⟩ := unsigned?_local hr
    refine ⟨front, hfront, fun tail => ?_⟩
    change unsigned (front ++ tail) = _
    rw [unsigned, hread]

theorem local_signed : Local signed := by
  intro bs n rest h
  change signed bs = _ at h
  unfold signed at h
  cases hr : signed? bs with
  | none =>
    rw [hr] at h
    cases h
  | some r =>
    rw [hr] at h
    cases h
    obtain ⟨front, hfront, hread⟩ := signed?_local hr
    refine ⟨front, hfront, fun tail => ?_⟩
    change signed (front ++ tail) = _
    rw [signed, hread]

end Leb128

end ElfScope
