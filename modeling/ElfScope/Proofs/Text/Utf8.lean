import Mathlib
import ElfScope.Text.Utf8

/-! # UTF-8 read back

A text without surrogates is read from its bytes as it was, by the strict reader and by the lossy one.
The lossy reader gives no surrogates, whatever the bytes are.
-/
namespace ElfScope

/-- The character is no surrogate. -/
def CodePoint.Scalar (c : CodePoint) : Prop := c.value < 0xd800 ∨ 0xe000 ≤ c.value

instance (c : CodePoint) : Decidable c.Scalar := inferInstanceAs (Decidable (_ ∨ _))

def Text.Scalar (t : Text) : Prop := ∀ c ∈ t, c.Scalar

instance (t : Text) : Decidable t.Scalar := inferInstanceAs (Decidable (∀ c ∈ t, c.Scalar))

theorem CodePoint.scalar_ofChar (c : Char) : (CodePoint.ofChar c).Scalar := by
  have h := c.valid
  simp only [UInt32.isValidChar, Nat.isValidChar] at h
  change c.val.toNat < _ ∨ _ ≤ c.val.toNat
  omega

theorem Text.scalar_ofString (s : String) : (Text.ofString s).Scalar :=
  List.forall_mem_map.mpr fun c _ => CodePoint.scalar_ofChar c

namespace Text.Scalar
variable {s t : Text}

theorem nil : Text.Scalar [] := by simp [Text.Scalar]

theorem append (hs : s.Scalar) (ht : t.Scalar) : Text.Scalar (s ++ t) :=
  List.forall_mem_append.mpr ⟨hs, ht⟩

theorem flatMap {f : CodePoint → Text} (h : ∀ c ∈ t, (f c).Scalar) : Text.Scalar (t.flatMap f) :=
  List.forall_mem_flatMap.mpr h

end Text.Scalar

namespace Utf8

theorem ofNat_value {n : Nat} {c : CodePoint} (h : n = c.value) : CodePoint.ofNat n = c := by
  subst h
  simp [CodePoint.ofNat, c.lt]

theorem toNat_ofNat {n : Nat} (h : n < 0x100) : (UInt8.ofNat n).toNat = n := by
  rw [UInt8.toNat_ofNat']
  omega

theorem scanFrom_start (b : UInt8) (rest : Bytes) :
    scanFrom .start (b :: rest) = (first b).1 ++ scanFrom (first b).2 rest := by
  rw [scanFrom]

theorem scanFrom_within_ne_nil (owed low high bits : Nat) (bs : Bytes) :
    scanFrom (.within owed low high bits) bs ≠ [] := by
  induction bs generalizing owed low high bits with
  | nil => simp [scanFrom]
  | cons b rest ih =>
    rw [scanFrom]
    split_ifs with hnext
    · cases owed with
      | zero => exact List.cons_ne_nil _ _
      | succ owed => exact ih owed _ _ _
    · exact List.cons_ne_nil _ _

/-- Every byte is read as some character, if only as an invalid one. -/
theorem scanFrom_start_ne_nil (b : UInt8) (rest : Bytes) : scanFrom .start (b :: rest) ≠ [] := by
  rw [scanFrom_start]
  unfold first
  dsimp only
  split_ifs
  all_goals first
    | exact scanFrom_within_ne_nil _ _ _ _ _
    | exact List.cons_ne_nil _ _

@[simp] theorem decodeLossy_eq_nil {bs : Bytes} : decodeLossy bs = [] ↔ bs = [] := by
  cases bs with
  | nil => simp [decodeLossy, scan, scanFrom]
  | cons b rest => simp [decodeLossy, scan, scanFrom_start_ne_nil]

theorem scanFrom_last {low high bits n : Nat} {c : CodePoint} (hn : low ≤ n ∧ n ≤ high)
    (hb : n < 0x100) (hc : bits * 64 + (n - 0x80) = c.value) (rest : Bytes) :
    scanFrom (.within 0 low high bits) (UInt8.ofNat n :: rest) = some c :: scanFrom .start rest := by
  rw [scanFrom]
  simp only [toNat_ofNat hb, if_pos hn, ofNat_value hc]

theorem scanFrom_next {owed low high bits n : Nat} (hn : low ≤ n ∧ n ≤ high) (hb : n < 0x100)
    (rest : Bytes) :
    scanFrom (.within (owed + 1) low high bits) (UInt8.ofNat n :: rest) =
      scanFrom (.within owed 0x80 0xbf (bits * 64 + (n - 0x80))) rest := by
  rw [scanFrom]
  simp only [toNat_ofNat hb, if_pos hn]

theorem first_two {n : Nat} (h : 0xc2 ≤ n ∧ n < 0xe0) :
    first (UInt8.ofNat n) = ([], .within 0 0x80 0xbf (n - 0xc0)) := by
  unfold first
  simp only [toNat_ofNat (show n < 0x100 by omega)]
  rw [if_neg (by omega), if_neg (by omega), if_pos (by omega)]

/-- The least and the greatest byte after the first of three. -/
theorem first_three {n : Nat} (h : 0xe0 ≤ n ∧ n < 0xf0) :
    first (UInt8.ofNat n) = ([], .within 1 (if n = 0xe0 then 0xa0 else 0x80)
      (if n = 0xed then 0x9f else 0xbf) (n - 0xe0)) := by
  unfold first
  simp only [toNat_ofNat (show n < 0x100 by omega)]
  rw [if_neg (by omega), if_neg (by omega), if_neg (by omega)]
  split_ifs <;> first | omega | simp_all

/-- The least and the greatest byte after the first of four. -/
theorem first_four {n : Nat} (h : 0xf0 ≤ n ∧ n ≤ 0xf4) :
    first (UInt8.ofNat n) = ([], .within 2 (if n = 0xf0 then 0x90 else 0x80)
      (if n = 0xf4 then 0x8f else 0xbf) (n - 0xf0)) := by
  unfold first
  simp only [toNat_ofNat (show n < 0x100 by omega)]
  rw [if_neg (by omega), if_neg (by omega), if_neg (by omega), if_neg (by omega), if_neg (by omega),
    if_neg (by omega)]
  split_ifs <;> first | omega | simp_all

theorem scanFrom_encodePoint {c : CodePoint} (h : c.Scalar) (rest : Bytes) :
    scanFrom .start (encodePoint c ++ rest) = some c :: scanFrom .start rest := by
  have hlt := c.lt
  unfold CodePoint.Scalar at h
  simp only [encodePoint]
  split_ifs with h1 h2 h3
  · have hf : first (UInt8.ofNat c.value) = ([some c], .start) := by
      unfold first
      simp only [toNat_ofNat (show c.value < 0x100 by omega), if_pos h1, ofNat_value rfl]
    rw [List.singleton_append, scanFrom_start, hf]
    rfl
  · rw [List.cons_append, scanFrom_start, first_two (by omega)]
    exact scanFrom_last (by omega) (by omega) (by omega) rest
  · rw [List.cons_append, scanFrom_start, first_three (by omega)]
    refine (scanFrom_next ?_ (by omega) _).trans ?_
    · split_ifs <;> omega
    · exact scanFrom_last (by omega) (by omega) (by omega) rest
  · rw [List.cons_append, scanFrom_start, first_four (by omega)]
    refine (scanFrom_next ?_ (by omega) _).trans ((scanFrom_next (by omega) (by omega) _).trans ?_)
    · split_ifs <;> omega
    · exact scanFrom_last (by omega) (by omega) (by omega) rest

theorem scan_encode {t : Text} (h : t.Scalar) : scan (encode t) = t.map some := by
  induction t with
  | nil => rfl
  | cons c t ih =>
    have hrest := ih fun d hd => h d (List.mem_cons_of_mem _ hd)
    change scanFrom .start (encodePoint c ++ encode t) = _
    rw [scanFrom_encodePoint (h c List.mem_cons_self)]
    exact congrArg _ hrest

theorem decodeLossy_encode {t : Text} (h : t.Scalar) : decodeLossy (encode t) = t := by
  simp [decodeLossy, scan_encode h]

theorem decode?_encode {t : Text} (h : t.Scalar) : decode? (encode t) = some t := by
  have hmap (t : Text) : (t.map some).mapM id = some t := by
    induction t with
    | nil => rfl
    | cons c t ih => simp [List.mapM_cons, ih]
  rw [decode?, scan_encode h, hmap]

/-- Texts one after the other, each with a NUL after it. -/
def encodeTexts (texts : List Text) : Bytes := texts.flatMap fun t => encode t ++ [0]

/-- Only the character NUL is written with a NUL. -/
theorem zero_notMem_encode {t : Text} (h : ∀ c ∈ t, c.value ≠ 0) : (0 : UInt8) ∉ encode t := by
  have hzero {n : Nat} (hn : 0 < n ∧ n < 0x100) : (0 : UInt8) ≠ UInt8.ofNat n := by
    intro h
    have := congrArg UInt8.toNat h
    rw [toNat_ofNat hn.2] at this
    exact absurd this (Nat.ne_of_lt hn.1)
  intro hmem
  obtain ⟨c, hc, hmem⟩ := List.mem_flatMap.mp hmem
  have hpos := Nat.pos_of_ne_zero (h c hc)
  have hlt := c.lt
  unfold encodePoint at hmem
  simp only at hmem
  split_ifs at hmem with h1 h2 h3 <;>
    simp only [List.mem_cons, List.not_mem_nil, or_false] at hmem
  · exact hzero ⟨hpos, by omega⟩ hmem
  · rcases hmem with hm | hm <;> exact hzero ⟨by omega, by omega⟩ hm
  · rcases hmem with hm | hm | hm <;> exact hzero ⟨by omega, by omega⟩ hm
  · rcases hmem with hm | hm | hm | hm <;> exact hzero ⟨by omega, by omega⟩ hm

/-- The characters that can still come of a state lie before or after the surrogates. -/
def State.Scalar : State → Prop
  | .start => True
  | .within owed low high bits =>
    (bits * 64 + (high - 0x80) + 1) * 64 ^ owed ≤ 0xd800 ∨
      0xe000 ≤ (bits * 64 + (low - 0x80)) * 64 ^ owed

theorem scalar_first (b : UInt8) :
    (∀ o ∈ (first b).1, ∀ c ∈ o, c.Scalar) ∧ (first b).2.Scalar := by
  have hb := b.toNat_lt
  simp only [first]
  split_ifs with h1 h2 h3 h4 h5 h6 h7 h8 h9
  · refine ⟨fun o ho c hc => .inl ?_, trivial⟩
    rw [List.mem_singleton.mp ho] at hc
    rw [← Option.some.inj hc, CodePoint.ofNat, dif_pos (by omega)]
    simp only
    omega
  all_goals
    refine ⟨by simp, ?_⟩
    simp only [State.Scalar]
    try omega

theorem scalar_ofNat {n : Nat} (h : n < 0xd800 ∨ 0xe000 ≤ n) : (CodePoint.ofNat n).Scalar := by
  unfold CodePoint.ofNat
  split_ifs
  · exact h
  · exact .inr (by decide)

theorem scalar_scanFrom {state : State} (h : state.Scalar) (bs : Bytes) :
    ∀ o ∈ scanFrom state bs, ∀ c ∈ o, c.Scalar := by
  induction bs generalizing state with
  | nil => cases state <;> simp [scanFrom]
  | cons b rest ih =>
    have hfirst := scalar_first b
    have hafter : ∀ o ∈ (first b).1 ++ scanFrom (first b).2 rest, ∀ c ∈ o, c.Scalar := by
      intro o ho
      rcases List.mem_append.mp ho with ho | ho
      · exact hfirst.1 o ho
      · exact ih hfirst.2 o ho
    cases state with
    | start =>
      rw [scanFrom_start]
      exact hafter
    | within owed low high bits =>
      rw [scanFrom]
      split_ifs with hb
      · cases owed with
        | zero =>
          intro o ho
          rcases List.mem_cons.mp ho with rfl | ho
          · intro c hc
            rw [← Option.some.inj hc]
            simp only [State.Scalar, pow_zero, mul_one] at h
            exact scalar_ofNat (by omega)
          · exact @ih .start trivial o ho
        | succ owed =>
          apply ih
          simp only [State.Scalar, pow_succ'] at h ⊢
          rcases h with h | h
          · refine .inl (le_trans ?_ h)
            rw [← mul_assoc]
            exact Nat.mul_le_mul_right _ (by omega)
          · refine .inr (le_trans h ?_)
            rw [← mul_assoc]
            exact Nat.mul_le_mul_right _ (by omega)
      · intro o ho
        rcases List.mem_cons.mp ho with rfl | ho
        · simp
        · exact hafter o ho

theorem scalar_decodeLossy (bs : Bytes) : (decodeLossy bs).Scalar := by
  intro c hc
  obtain ⟨o, ho, rfl⟩ := List.mem_map.mp hc
  cases o with
  | none => exact .inr (by decide)
  | some c => exact @scalar_scanFrom .start trivial bs (some c) ho c rfl

end Utf8

end ElfScope
