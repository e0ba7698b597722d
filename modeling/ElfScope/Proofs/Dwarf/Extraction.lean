import Mathlib
import ElfScope.Proofs.Analysis.Shapes
import ElfScope.Proofs.Dwarf.DecodedValues

/-! # What is extracted of an entry

An extraction fails where the children cannot be listed, or where a number of the entry is too large for
its field. A child of which no record can be made is left out, and the others are as they would be
without it. The numbers of a record are those of the entry.
-/
namespace ElfScope

theorem Except.bind_fails {ε α β : Type} {x : Except ε α} {f : α → Except ε β} :
    (∃ e, x >>= f = .error e) ↔ (∃ e, x = .error e) ∨ ∃ a, x = .ok a ∧ ∃ e, f a = .error e := by
  cases x with
  | error e => exact iff_of_true ⟨e, rfl⟩ (.inl ⟨e, rfl⟩)
  | ok a =>
    constructor
    · rintro ⟨e, he⟩
      exact .inr ⟨a, rfl, e, he⟩
    · rintro (⟨e, he⟩ | ⟨a', ha', e, he⟩)
      · cases he
      · cases ha'
        exact ⟨e, he⟩

theorem Except.map_fails {ε α β : Type} {x : Except ε α} {f : α → β} :
    (∃ e, f <$> x = .error e) ↔ ∃ e, x = .error e := by
  cases x with
  | error e => exact iff_of_true ⟨e, rfl⟩ ⟨e, rfl⟩
  | ok a =>
    constructor
    · rintro ⟨e, he⟩
      cases he
    · rintro ⟨e, he⟩
      cases he

namespace Check
variable {name : Text} {n : Int}

/-- A number that fits in a word is taken, as it is. -/
theorem wordOf_eq_ok {w : UInt64} : wordOf name n = .ok w ↔ (w.toNat : Int) = n := by
  refine ⟨toNat_of_wordOf, ?_⟩
  rintro rfl
  have hlt : w.toNat < 2 ^ 64 := w.toNat_lt
  have hrange : inRange name (some 0) (some maxWord) (w.toNat : Int) = .ok () := by
    rw [inRange_eq_ok]
    constructor
    · rintro m hm
      cases hm
      exact Int.natCast_nonneg _
    · rintro m hm
      cases hm
      simp only [maxWord]
      omega
  unfold wordOf
  rw [hrange]
  exact congrArg Except.ok (UInt64.toNat.inj (by simp))

theorem exists_wordOf (hn : 0 ≤ n) (hlt : n < 2 ^ 64) : ∃ w, wordOf name n = .ok w := by
  refine ⟨UInt64.ofNat n.toNat, wordOf_eq_ok.mpr ?_⟩
  rw [UInt64.toNat_ofNat']
  omega

theorem wordOf_fails (hn : 0 ≤ n) : (∃ e, wordOf name n = .error e) ↔ 2 ^ 64 ≤ n := by
  constructor
  · rintro ⟨e, he⟩
    by_contra hlt
    obtain ⟨w, hw⟩ := @exists_wordOf name n hn (not_le.mp hlt)
    rw [hw] at he
    cases he
  · intro hle
    cases hword : wordOf name n with
    | error e => exact ⟨e, rfl⟩
    | ok w =>
      have hlt : w.toNat < 2 ^ 64 := w.toNat_lt
      rw [wordOf_eq_ok] at hword
      omega

end Check

namespace Dwarf

open CompileUnit

namespace Die

theorem sizeWord_fails {size : Option Nat} :
    (∃ e, sizeWord size = .error e) ↔ ∃ n, size = some n ∧ 2 ^ 64 ≤ n := by
  cases size with
  | none =>
    refine iff_of_false ?_ ?_
    · rintro ⟨e, he⟩
      cases he
    · rintro ⟨n, hn, -⟩
      cases hn
  | some n =>
    have hword := @Check.wordOf_fails "size" n (Int.natCast_nonneg n)
    change (∃ e, some <$> Check.wordOf "size" n = .error e) ↔ _
    rw [Except.map_fails, hword]
    constructor
    · exact fun hle => ⟨n, rfl, by omega⟩
    · rintro ⟨m, hm, hle⟩
      cases hm
      omega

/-! ### Numbers of an entry -/

/-- What a constant tells that must not be negative: nothing, where it is of another form, or negative,
or missing. -/
inductive HasConstant (d : Die) (code : Nat) : Option Int → Prop where
  | constant (a : Attribute) (n : Int) (h : d.attribute? code = some a)
      (hform : a.form.isConstant = true) (hvalue : a.value = .number n) (hn : 0 ≤ n) :
      HasConstant d code (some n)
  | negative (a : Attribute) (n : Int) (h : d.attribute? code = some a)
      (hform : a.form.isConstant = true) (hvalue : a.value = .number n) (hn : n < 0) :
      HasConstant d code none
  | otherForm (a : Attribute) (h : d.attribute? code = some a) (hform : a.form.isConstant = false) :
      HasConstant d code none
  | absent (h : d.attribute? code = none) : HasConstant d code none

/-- A constant is too large for a word. -/
def Exceeds (d : Die) (code : Nat) : Prop :=
  ∃ a n, d.attribute? code = some a ∧ a.form.isConstant = true ∧ a.value = .number n ∧
    2 ^ 64 - 1 < n

/-- The start of the code, which is zero unless an address tells it. -/
inductive HasLowPc (d : Die) : Int → Prop where
  | address (a : Attribute) (n : Int) (h : d.attribute? AttributeCode.lowPc = some a)
      (hform : a.form = .addr) (hvalue : a.value = .number n) : HasLowPc d n
  | absent (h : ∀ a, d.attribute? AttributeCode.lowPc = some a → a.form ≠ .addr) : HasLowPc d 0

/-- The size of the code, from its end as an address, or as a constant. -/
inductive HasCodeSize (d : Die) (low : Int) : Option Int → Prop where
  | range (a : Attribute) (high : Int) (h : d.attribute? AttributeCode.highPc = some a)
      (hform : a.form = .addr) (hvalue : a.value = .number high) :
      HasCodeSize d low (some (max (high - low) 0))
  | constant (size : Option Int)
      (h : ∀ a, d.attribute? AttributeCode.highPc = some a → a.form ≠ .addr)
      (hsize : d.HasConstant AttributeCode.highPc size) : HasCodeSize d low size

/-- The location is an expression of one fixed address. -/
def LocatedAt (d : Die) (w : UInt64) : Prop :=
  ∃ a, d.attribute? AttributeCode.location = some a ∧ a.form.isExpression = true ∧
    a.value = .block (0x03 :: Bytes.ofNat .little 8 w.toNat)

variable {d : Die} {code : Nat}

def constant? (d : Die) (code : Nat) : Option Nat := (d.attribute? code).bind unsignedConstant?

theorem constant?_of_none (h : d.attribute? code = none) : d.constant? code = none := by
  unfold constant?
  rw [h]
  rfl

theorem constant?_of_otherForm {a : Attribute} (h : d.attribute? code = some a)
    (hform : a.form.isConstant = false) : d.constant? code = none := by
  unfold constant? unsignedConstant?
  rw [h, Option.bind_some, hform]
  cases a.value <;> simp

theorem constant?_of_number {a : Attribute} {n : Int} (h : d.attribute? code = some a)
    (hform : a.form.isConstant = true) (hvalue : a.value = .number n) :
    d.constant? code = if 0 ≤ n then some n.toNat else none := by
  unfold constant? unsignedConstant?
  rw [h, Option.bind_some, hvalue, hform]
  simp

theorem HasConstant.constant?_eq {r : Option Int} (h : d.HasConstant code r) :
    (d.constant? code).map Nat.cast = r := by
  cases h with
  | constant a n h hform hvalue hn =>
    rw [constant?_of_number h hform hvalue, if_pos hn, Option.map_some, Int.toNat_of_nonneg hn]
  | negative a n h hform hvalue hn =>
    rw [constant?_of_number h hform hvalue, if_neg (not_le.mpr hn)]
    rfl
  | otherForm a h hform => rw [constant?_of_otherForm h hform]; rfl
  | absent h => rw [constant?_of_none h]; rfl

section
variable (hd : d.attributes.Sound)
include hd

theorem hasConstant_iff {r : Option Int} :
    d.HasConstant code r ↔ (d.constant? code).map Nat.cast = r := by
  refine ⟨HasConstant.constant?_eq, ?_⟩
  rintro rfl
  cases h : d.attribute? code with
  | none =>
    rw [constant?_of_none h]
    exact .absent h
  | some a =>
    cases hform : a.form.isConstant with
    | false =>
      rw [constant?_of_otherForm h hform]
      exact .otherForm a h hform
    | true =>
      obtain ⟨n, hvalue⟩ := (holds_attribute? hd h).constant hform
      rw [constant?_of_number h hform hvalue]
      split_ifs with hn
      · rw [Option.map_some, Int.toNat_of_nonneg hn]
        exact .constant a n h hform hvalue hn
      · exact .negative a n h hform hvalue (not_le.mp hn)

theorem exceeds_iff : d.Exceeds code ↔ ∃ n, d.constant? code = some n ∧ 2 ^ 64 ≤ n := by
  constructor
  · rintro ⟨a, n, h, hform, hvalue, hn⟩
    rw [constant?_of_number h hform hvalue, if_pos (by omega)]
    exact ⟨n.toNat, rfl, by omega⟩
  · rintro ⟨n, hconstant, hn⟩
    have hhas := (hasConstant_iff hd (r := some (n : Int))).mpr (by rw [hconstant]; rfl)
    cases hhas with
    | constant a m h hform hvalue hm => exact ⟨a, n, h, hform, hvalue, by omega⟩

theorem hasLowPc_iff {low : Int} : d.HasLowPc low ↔ d.lowPc = low := by
  have hnumber {a : Attribute} {n : Int} (h : d.attribute? AttributeCode.lowPc = some a)
      (hform : a.form = .addr) (hvalue : a.value = .number n) : d.lowPc = n := by
    obtain ⟨code, form, value⟩ := a
    obtain rfl : form = .addr := hform
    obtain rfl : value = .number n := hvalue
    unfold lowPc
    rw [h]
  have hother (h : ∀ a, d.attribute? AttributeCode.lowPc = some a → a.form ≠ .addr) :
      d.lowPc = 0 := by
    unfold lowPc
    split
    · next code n hattribute => exact absurd rfl (h _ hattribute)
    · rfl
  constructor
  · intro hlow
    cases hlow with
    | address a n h hform hvalue => exact hnumber h hform hvalue
    | absent h => exact hother h
  · rintro rfl
    by_cases haddr : ∃ a, d.attribute? AttributeCode.lowPc = some a ∧ a.form = .addr
    · obtain ⟨a, h, hform⟩ := haddr
      obtain ⟨n, hvalue, -⟩ := (holds_attribute? hd h).address hform
      rw [hnumber h hform hvalue]
      exact .address a n h hform hvalue
    · have hnot : ∀ a, d.attribute? AttributeCode.lowPc = some a → a.form ≠ .addr :=
        fun a h hform => haddr ⟨a, h, hform⟩
      rw [hother hnot]
      exact .absent hnot

theorem lowPc_range : 0 ≤ d.lowPc ∧ d.lowPc < 2 ^ 64 := by
  have hlow : d.HasLowPc d.lowPc := (hasLowPc_iff hd).mpr rfl
  generalize d.lowPc = low at hlow ⊢
  cases hlow with
  | address a n h hform hvalue =>
    obtain ⟨m, hm, hlt⟩ := (holds_attribute? hd h).address hform
    rw [hvalue] at hm
    cases hm
    omega
  | absent h => omega

end

theorem codeSize?_of_addr {a : Attribute} {low high : Int}
    (h : d.attribute? AttributeCode.highPc = some a) (hform : a.form = .addr)
    (hvalue : a.value = .number high) : d.codeSize? low = some (high - low).toNat := by
  obtain ⟨code, form, value⟩ := a
  obtain rfl : form = .addr := hform
  obtain rfl : value = .number high := hvalue
  unfold codeSize?
  rw [h]

theorem codeSize?_of_ne {low : Int}
    (h : ∀ a, d.attribute? AttributeCode.highPc = some a → a.form ≠ .addr) :
    d.codeSize? low = d.constant? AttributeCode.highPc := by
  unfold codeSize? constant?
  split
  · next hnone =>
    rw [hnone]
    rfl
  · next hattribute => exact absurd rfl (h _ hattribute)
  · next a _ hattribute =>
    rw [hattribute]
    rfl

section
variable (hd : d.attributes.Sound)
include hd

theorem hasCodeSize_iff {low : Int} {size : Option Int} :
    d.HasCodeSize low size ↔ (d.codeSize? low).map Nat.cast = size := by
  constructor
  · intro h
    cases h with
    | range a high h hform hvalue =>
      rw [codeSize?_of_addr h hform hvalue, Option.map_some, Int.ofNat_toNat]
    | constant size h hsize =>
      rw [codeSize?_of_ne h]
      exact hsize.constant?_eq
  · rintro rfl
    by_cases haddr : ∃ a, d.attribute? AttributeCode.highPc = some a ∧ a.form = .addr
    · obtain ⟨a, h, hform⟩ := haddr
      obtain ⟨n, hvalue, -⟩ := (holds_attribute? hd h).address hform
      rw [codeSize?_of_addr h hform hvalue, Option.map_some, Int.ofNat_toNat]
      exact .range a n h hform hvalue
    · have hnot : ∀ a, d.attribute? AttributeCode.highPc = some a → a.form ≠ .addr :=
        fun a h hform => haddr ⟨a, h, hform⟩
      rw [codeSize?_of_ne hnot]
      exact .constant _ hnot ((hasConstant_iff hd).mpr rfl)

/-- Only a constant can be too large for the size of the code. -/
theorem codeSize?_exceeds : (∃ n, d.codeSize? d.lowPc = some n ∧ 2 ^ 64 ≤ n) ↔
    d.Exceeds AttributeCode.highPc := by
  rw [exceeds_iff hd]
  by_cases haddr : ∃ a, d.attribute? AttributeCode.highPc = some a ∧ a.form = .addr
  · obtain ⟨a, h, hform⟩ := haddr
    obtain ⟨n, hvalue, hlt⟩ := (holds_attribute? hd h).address hform
    obtain ⟨hlow, -⟩ := lowPc_range hd
    rw [codeSize?_of_addr h hform hvalue, constant?_of_otherForm h (by rw [hform]; rfl)]
    constructor
    · rintro ⟨m, hm, hle⟩
      obtain rfl := Option.some.inj hm
      omega
    · rintro ⟨m, hm, -⟩
      cases hm
  · rw [codeSize?_of_ne fun a h hform => haddr ⟨a, h, hform⟩]

end

theorem location?_eq_some {w : UInt64} : d.location? = some w ↔ d.LocatedAt w := by
  unfold location?
  constructor
  · intro h
    split at h
    · next code form operator operand hattribute =>
      split_ifs at h with hfixed
      obtain ⟨hform, rfl, hlength⟩ := hfixed
      cases h
      have hlt := Bytes.littleValue_lt operand
      have hback := Bytes.ofLittle_littleValue operand
      rw [hlength] at hlt hback
      refine ⟨_, hattribute, hform, ?_⟩
      rw [UInt64.toNat_ofNat', Nat.mod_eq_of_lt (hlt.trans_eq (by decide))]
      exact congrArg (fun bs => Value.block (0x03 :: bs)) hback.symm
    · cases h
  · rintro ⟨⟨code, form, value⟩, h, hform, hvalue⟩
    obtain rfl : value = _ := hvalue
    rw [h]
    have hlength : (Bytes.ofNat .little 8 w.toNat).length = 8 := Bytes.length_ofNat ..
    have hnumber : Bytes.littleValue (Bytes.ofNat .little 8 w.toNat) = w.toNat := by
      have hmod := Bytes.value_ofNat .little 8 w.toNat
      rwa [Nat.mod_eq_of_lt (w.toNat_lt.trans_eq (by decide))] at hmod
    dsimp only
    rw [if_pos ⟨hform, rfl, hlength⟩, hnumber, UInt64.ofNat_toNat]

/-! ### Records -/

theorem memberInfo_fails (hd : d.attributes.Sound) :
    (∃ e, d.memberInfo = .error e) ↔ d.Exceeds AttributeCode.dataMemberLocation := by
  have hword := @Check.wordOf_fails "offset" d.memberOffset (Int.natCast_nonneg _)
  unfold memberInfo
  rw [Except.bind_fails, exceeds_iff hd, hword]
  change 2 ^ 64 ≤ (((d.constant? AttributeCode.dataMemberLocation).getD 0 : Nat) : Int) ∨ _ ↔ _
  constructor
  · rintro (hle | ⟨w, -, e, he⟩)
    · cases hoffset : d.constant? AttributeCode.dataMemberLocation with
      | none =>
        rw [hoffset] at hle
        cases hle
      | some n =>
        rw [hoffset, Option.getD_some] at hle
        exact ⟨n, rfl, by omega⟩
    · cases he
  · rintro ⟨n, hn, hle⟩
    rw [hn, Option.getD_some]
    exact .inl (by omega)

theorem functionInfo_fails (hd : d.attributes.Sound) (parameters : List VariableInfo) :
    (∃ e, d.functionInfo parameters = .error e) ↔ d.Exceeds AttributeCode.highPc := by
  obtain ⟨hlow, hhigh⟩ := lowPc_range hd
  obtain ⟨address, haddress⟩ := @Check.exists_wordOf "address" d.lowPc hlow hhigh
  unfold functionInfo
  rw [haddress]
  change (∃ e, (sizeWord (d.codeSize? d.lowPc) >>= _ : Except RecordError FunctionInfo) = .error e) ↔ _
  rw [Except.bind_fails, sizeWord_fails, codeSize?_exceeds hd, or_iff_left]
  rintro ⟨size, -, e, he⟩
  cases he

/-- The record of a function has the numbers of its entry. -/
theorem functionInfo_eq_ok (hd : d.attributes.Sound) {parameters : List VariableInfo}
    {f : FunctionInfo} (h : d.functionInfo parameters = .ok f) :
    f.parameters = parameters ∧ ∃ low, d.HasLowPc low ∧ (f.address.toNat : Int) = low ∧
      ∀ size, d.HasCodeSize low size ↔ f.size.map (fun w => (w.toNat : Int)) = size := by
  obtain ⟨address, haddress, h⟩ := Except.bind_eq_ok.mp h
  obtain ⟨size, hsize, h⟩ := Except.bind_eq_ok.mp h
  cases h
  refine ⟨rfl, d.lowPc, (hasLowPc_iff hd).mpr rfl, Check.toNat_of_wordOf haddress, fun r => ?_⟩
  rw [hasCodeSize_iff hd, ← toNat_of_sizeWord hsize, Option.map_map]
  rfl

theorem typeInfo_fails (hd : d.attributes.Sound) (members : List MemberInfo) :
    (∃ e, d.typeInfo members = .error e) ↔ d.Exceeds AttributeCode.byteSize := by
  unfold typeInfo
  rw [Except.bind_fails, exceeds_iff hd, ← sizeWord_fails, or_iff_left]
  · rfl
  · rintro ⟨size, -, e, he⟩
    cases he

theorem typeInfo_eq_ok (hd : d.attributes.Sound) {members : List MemberInfo} {info : TypeInfo}
    (h : d.typeInfo members = .ok info) :
    ∃ size, info = .mk (d.name anonymousName) size d.typeKind members ∧
      ∀ r, d.HasConstant AttributeCode.byteSize r ↔
        size.map (fun w => (w.toNat : Int)) = r := by
  obtain ⟨size, hsize, h⟩ := Except.bind_eq_ok.mp h
  cases h
  refine ⟨size, rfl, fun r => ?_⟩
  have hbytes : (d.constant? AttributeCode.byteSize) = size.map (·.toNat) :=
    (toNat_of_sizeWord hsize).symm
  rw [hasConstant_iff hd, hbytes, Option.map_map]
  rfl

end Die

/-! ### Children -/

namespace Walk
variable {α β : Type} (s : DebugSections) (u : CompileUnit)

/-- The children with a tag, with nothing made of them. -/
def childrenWith (d : Die) (tag : Nat) : Walk (List Die) :=
  collectChildren s u d tag fun child => return some child

/-- The entries that the members of a type are made of. -/
def memberEntries (d : Die) : Walk (List Die) :=
  if d.typeKind = .struct ∨ d.typeKind = .union then childrenWith s u d Tag.member else return []

/-- A failure that is none of a walk without end. -/
def Raises (r : Except Failure α) : Prop := ∃ e, r = .error e ∧ e ≠ .endless

def Endless (r : Except Failure α) : Prop := r = .error .endless

@[simp] theorem endless_error {e : Failure} : Endless (.error e : Except Failure α) ↔ e = .endless := by
  simp [Endless]

@[simp] theorem raises_error {e : Failure} : Raises (.error e : Except Failure α) ↔ e ≠ .endless := by
  simp [Raises]

@[simp] theorem not_endless_ok {a : α} : ¬Endless (.ok a) := by simp [Endless]

@[simp] theorem not_raises_ok {a : α} : ¬Raises (.ok a) := by simp [Raises]

/-- An action gives the same value on every desk, and leaves all of it but the log. -/
def Tells (act : Walk α) (a : α) : Prop :=
  ∀ desk, ∃ log, outcome act desk = (.ok a, { desk with log })

variable {s u}

theorem outcome_bind_of_ok {act : Walk α} {next : α → Walk β} {desk desk' : Desk} {a : α}
    (h : outcome act desk = (.ok a, desk')) :
    outcome (act >>= next) desk = outcome (next a) desk' := by
  rw [outcome_bind, h]

theorem outcome_bind_pure (act : Walk α) (g : α → β) (desk : Desk) :
    (outcome (act >>= fun a => pure (g a)) desk).1 = g <$> (outcome act desk).1 := by
  rw [outcome_bind]
  rcases outcome act desk with ⟨e | a, desk'⟩ <;> rfl

theorem tells_pure (a : α) : Tells (pure a) a := fun desk => ⟨desk.log, rfl⟩

/-- A record is made of a child, or the child is reported and left out. -/
theorem tells_orSkip (child : Die) (part : Text) (r : Except RecordError α) :
    Tells (orSkip child part (ofRecord r)) r.toOption := by
  intro desk
  cases r with
  | ok a => exact ⟨desk.log, rfl⟩
  | error e => exact ⟨_, rfl⟩

/-- What is made of the children is made of each of them alone. -/
theorem outcome_collectFrom_tells {make : Die → Walk (Option α)} {f : Die → Option α}
    (h : ∀ d, Tells (make d) (f d)) (fuel : Nat) (c : Cursor) {desk desk' : Desk}
    (hdesk : desk'.memories = desk.memories) :
    (outcome (collectFrom s u make fuel c) desk').1 =
      List.filterMap f <$> (outcome (collectFrom s u (fun d => return some d) fuel c) desk).1 := by
  induction fuel generalizing c desk desk' with
  | zero => rfl
  | succ fuel ih =>
    have hmemory : desk'.memory u = desk.memory u := by
      unfold Desk.memory
      rw [hdesk]
    have hremember (m : Memory) : (desk'.remember u m).memories = (desk.remember u m).memories := by
      unfold Desk.remember
      rw [hdesk]
    unfold collectFrom
    rw [outcome_bind, outcome_bind, outcome_inUnit, outcome_inUnit, hmemory]
    rcases outcome (u.advance s c) (desk.memory u) with ⟨e | _ | ⟨child, c'⟩, m⟩
    · rfl
    · rfl
    · dsimp only
      obtain ⟨log, hmade⟩ := h child (desk'.remember u m)
      have hrest := @ih c' (desk.remember u m) { desk'.remember u m with log } (hremember m)
      rw [outcome_bind_of_ok hmade, pure_bind, outcome_bind_pure, outcome_bind_pure, hrest,
        Functor.map_map, Functor.map_map]
      congr 1
      funext rest
      cases hf : f child <;> simp [hf]

/-- What is made of the children with a tag is made of each of those alone. -/
theorem outcome_collectChildren_tells {make : Die → Walk (Option α)} {f : Die → Option α}
    (h : ∀ d, Tells (make d) (f d)) (d : Die) (tag : Nat) {desk desk' : Desk}
    (hdesk : desk'.memories = desk.memories) :
    (outcome (collectChildren s u d tag make) desk').1 =
      List.filterMap f <$> (outcome (childrenWith s u d tag) desk).1 := by
  have hchoose {β : Type} {make : Die → Walk (Option β)} {f : Die → Option β}
      (h : ∀ d, Tells (make d) (f d)) (d : Die) :
      Tells (if d.tag = some tag then make d else return none)
        (if d.tag = some tag then f d else none) := by
    split_ifs
    · exact h d
    · exact tells_pure none
  have hsome (d : Die) : Tells (return some d) (some d) := tells_pure (some d)
  unfold childrenWith collectChildren
  cases d.children? with
  | none => rfl
  | some c =>
    dsimp only
    rw [outcome_collectFrom_tells (hchoose h) _ c hdesk,
      outcome_collectFrom_tells (hchoose hsome) _ c rfl, Functor.map_map]
    congr 1
    funext cs
    rw [List.filterMap_filterMap]
    congr 1
    funext child
    split_ifs <;> rfl

/-! ### Checked records -/

def checked (r : Except RecordError α) : Except Failure α := r.mapError .invalid

theorem outcome_ofRecord (r : Except RecordError α) (desk : Desk) :
    outcome (ofRecord r) desk = (checked r, desk) := by
  cases r <;> rfl

theorem outcome_bind_ofRecord (act : Walk β) (make : β → Except RecordError α) (desk : Desk) :
    (outcome (act >>= fun b => ofRecord (make b)) desk).1 =
      (outcome act desk).1 >>= fun b => checked (make b) := by
  rw [outcome_bind]
  rcases outcome act desk with ⟨e | b, desk'⟩
  · rfl
  · exact congrArg Prod.fst (outcome_ofRecord (make b) desk')

/-- A record that is made of children, which may be too many, or not be listed, or of numbers that are
too large. -/
structure Extracted (result : Except Failure α) (children : Except Failure (List Die))
    (exceeds : Prop) (made : List Die → α → Prop) : Prop where
  endless : Endless result ↔ Endless children
  raises : ¬Endless children → (Raises result ↔ Raises children ∨ exceeds)
  record : ∀ a, result = .ok a → ∃ cs, children = .ok cs ∧ made cs a

theorem extracted_of_checked {children : Except Failure (List Die)} {exceeds : Prop}
    {made : List Die → α → Prop} {make : List Die → Except RecordError α}
    (hfails : ∀ cs, (∃ e, make cs = .error e) ↔ exceeds)
    (hmade : ∀ cs a, make cs = .ok a → made cs a) :
    Extracted (children >>= fun cs => checked (make cs)) children exceeds made := by
  cases children with
  | error e =>
    change Extracted (.error e) (.error e) exceeds made
    refine ⟨by rw [endless_error, endless_error], fun hne => ?_, fun a ha => by cases ha⟩
    rw [endless_error] at hne
    exact iff_of_true (raises_error.mpr hne) (.inl (raises_error.mpr hne))
  | ok cs =>
    change Extracted (checked (make cs)) (.ok cs) exceeds made
    rw [← hfails cs]
    cases hmake : make cs with
    | error e =>
      change Extracted (.error (.invalid e)) (.ok cs) _ made
      refine ⟨by simp, fun _ => ?_, fun a ha => by cases ha⟩
      exact iff_of_true (raises_error.mpr (by simp)) (.inr ⟨e, rfl⟩)
    | ok a =>
      change Extracted (.ok a) (.ok cs) _ made
      refine ⟨iff_of_false not_endless_ok not_endless_ok, fun _ => by simp, fun a' ha' => ?_⟩
      cases ha'
      exact ⟨cs, rfl, hmade cs a hmake⟩

/-! ### Extractions -/

/-- What the record of a function tells: its parameters in order, and its numbers. -/
structure FunctionOf (d : Die) (cs : List Die) (f : FunctionInfo) : Prop where
  parameters : f.parameters = cs.map (·.variableInfo .parameter)
  numbers : ∃ low, d.HasLowPc low ∧ (f.address.toNat : Int) = low ∧
    ∀ size, d.HasCodeSize low size ↔ f.size.map (fun w => (w.toNat : Int)) = size

/-- What the record of a type tells: the members in order, without those that have no record. -/
def TypeOf (d : Die) (cs : List Die) (info : TypeInfo) : Prop :=
  ∃ size, info = .mk (d.name Die.anonymousName) size d.typeKind
      (cs.filterMap (·.memberInfo.toOption)) ∧
    ∀ r, d.HasConstant AttributeCode.byteSize r ↔ size.map (fun w => (w.toNat : Int)) = r

theorem outcome_extractFunction (d : Die) (desk : Desk) :
    (outcome (extractFunction s u d) desk).1 =
      (outcome (childrenWith s u d Tag.formalParameter) desk).1 >>= fun cs =>
        checked (d.functionInfo (cs.map (·.variableInfo .parameter))) := by
  have hparameter (child : Die) : Tells (orSkip child "parameter" (extractVariable child .parameter))
      (some (child.variableInfo .parameter)) :=
    tells_orSkip child "parameter" (.ok (child.variableInfo .parameter))
  unfold extractFunction
  rw [outcome_bind_ofRecord, outcome_collectChildren_tells hparameter d _ rfl,
    List.filterMap_eq_map', bind_map_left]

/-- Also where the children are not looked for. -/
theorem outcome_extractMembers (d : Die) {desk desk' : Desk}
    (hdesk : desk'.memories = desk.memories) :
    (outcome (extractMembers s u d) desk').1 =
      List.filterMap (·.memberInfo.toOption) <$> (outcome (memberEntries s u d) desk).1 := by
  unfold extractMembers memberEntries
  split_ifs
  · exact outcome_collectChildren_tells
      (fun child => tells_orSkip child "member" child.memberInfo) d Tag.member hdesk
  · rfl

theorem outcome_makeType (d : Die) {desk desk' : Desk} (hdesk : desk'.memories = desk.memories) :
    (outcome (makeType s u d) desk').1 = (outcome (memberEntries s u d) desk).1 >>= fun cs =>
      checked (d.typeInfo (cs.filterMap (·.memberInfo.toOption))) := by
  unfold makeType
  rw [outcome_bind_ofRecord, outcome_extractMembers d hdesk, bind_map_left]

theorem outcome_extractType_of_none (d : Die) {desk : Desk}
    (h : desk.types.lookup (u.offset, d.unitOffset u) = none) :
    (outcome (extractType s u d) desk).1 = (outcome (makeType s u d) desk).1 := by
  rw [outcome_extractType, h]
  dsimp only
  rw [outcome_bind]
  rcases outcome (makeType s u d) desk with ⟨e | info, desk'⟩ <;> rfl

/-- An extraction of an entry fails where its children cannot be listed, or where a constant is too large
for a word. A variable and a function have the numbers of their entries. -/
theorem extraction_exact (hu : u ∈ CompileUnit.units s) {d : Die} (hd : Produces s u d) (desk : Desk) :
    (∀ scope, ∃ x, outcome (extractVariable d scope) desk = (.ok x, desk) ∧
      ∀ w, x.address = some w ↔ d.LocatedAt w) ∧
    (Raises (outcome (extractMember d) desk).1 ↔ d.Exceeds AttributeCode.dataMemberLocation) ∧
    Extracted (outcome (extractFunction s u d) desk).1
      (outcome (childrenWith s u d Tag.formalParameter) desk).1
      (d.Exceeds AttributeCode.highPc) (FunctionOf d) ∧
    (desk.types.lookup (u.offset, d.unitOffset u) = none →
      Extracted (outcome (extractType s u d) desk).1 (outcome (memberEntries s u d) desk).1
        (d.Exceeds AttributeCode.byteSize) (TypeOf d)) := by
  have hsound := sound_of_produces hu hd
  refine ⟨fun scope => ⟨d.variableInfo scope, rfl, fun w => Die.location?_eq_some⟩, ?_, ?_,
    fun hnew => ?_⟩
  · unfold extractMember
    rw [outcome_ofRecord, ← Die.memberInfo_fails hsound]
    cases hmember : d.memberInfo with
    | error e => exact iff_of_true (raises_error.mpr (by simp)) ⟨e, rfl⟩
    | ok m => exact iff_of_false not_raises_ok fun ⟨e, he⟩ => by cases he
  · rw [outcome_extractFunction]
    refine extracted_of_checked (fun cs => Die.functionInfo_fails hsound _) fun cs f hf => ?_
    obtain ⟨hparameters, hnumbers⟩ := Die.functionInfo_eq_ok hsound hf
    exact ⟨hparameters, hnumbers⟩
  · rw [outcome_extractType_of_none d hnew, outcome_makeType d rfl]
    exact extracted_of_checked (fun cs => Die.typeInfo_fails hsound _) fun cs info hinfo =>
      Die.typeInfo_eq_ok hsound hinfo

/-- A structure of eight bytes with a member at an offset that is too large, and one at 4. -/
def largeMember : DebugSections where
  info := [25, 0, 0, 0, 4, 0, 0, 0, 0, 0, 8, 1, 2, 8,
    3, 0x80, 0x80, 0x80, 0x80, 0x80, 0x80, 0x80, 0x80, 0x80, 2, 3, 4, 0, 0]
  abbreviations := [1, 17, 1, 0, 0, 2, 19, 1, 11, 15, 0, 0, 3, 13, 0, 56, 15, 0, 0, 0]

def largeUnit : CompileUnit where
  offset := 0
  header := ⟨25, ⟨4, false, 8⟩, 0⟩
  start := 11
  table := Abbreviation.table? largeMember.abbreviations 0

def structureEntry : Die := ⟨12, 2, some 19, true, [⟨11, .udata, .number 8⟩]⟩

/-- A member at an offset. -/
def memberEntry (o size : Nat) (n : Int) : Die := ⟨o, size, some 13, false, [⟨56, .udata, .number n⟩]⟩

/-- The first member is not extracted, and is left out of the record of the structure. -/
theorem extraction_exact_largeMember :
    Raises (outcome (extractMember (memberEntry 14 11 (2 ^ 64))) {}).1 ∧
    ∃ size, (outcome (extractType largeMember largeUnit structureEntry) {}).1 =
        .ok (.mk Die.anonymousName (some size) .struct [.mk Die.unknownName 4 .unresolved]) ∧
      size.toNat = 8 := by
  have hunits : CompileUnit.units largeMember = [largeUnit] := by cbv
  have hu : largeUnit ∈ CompileUnit.units largeMember := by
    rw [hunits]
    exact List.mem_singleton_self largeUnit
  have hproduced (o : Nat) {d : Die} (h : (outcome (dieAt largeMember largeUnit o) {}).1 = .ok d) :
      Produces largeMember largeUnit d := ⟨{}, .new, .inr ⟨o, h⟩⟩
  have hmember : Produces largeMember largeUnit (memberEntry 14 11 (2 ^ 64)) :=
    hproduced 14 (by cbv)
  have hstructure : Produces largeMember largeUnit structureEntry := hproduced 12 (by cbv)
  have hchildren : (outcome (memberEntries largeMember largeUnit structureEntry) {}).1 =
      .ok [memberEntry 14 11 (2 ^ 64), memberEntry 25 2 4] := by cbv
  obtain ⟨-, hraises, -, -⟩ := extraction_exact hu hmember {}
  obtain ⟨-, -, -, htype⟩ := extraction_exact hu hstructure {}
  have hextracted := htype rfl
  rw [hchildren] at hextracted
  refine ⟨hraises.mpr ⟨_, _, rfl, rfl, rfl, by decide⟩, ?_⟩
  have hfits : ¬structureEntry.Exceeds AttributeCode.byteSize := by
    rintro ⟨a, n, ha, -, hn, hlarge⟩
    cases ha
    cases hn
    exact absurd hlarge (by decide)
  cases hresult : (outcome (extractType largeMember largeUnit structureEntry) {}).1 with
  | error e =>
    rw [hresult] at hextracted
    have hends := mt hextracted.endless.mp not_endless_ok
    have hgives := mt (hextracted.raises not_endless_ok).mp (not_or.mpr ⟨not_raises_ok, hfits⟩)
    rw [endless_error] at hends
    exact absurd (raises_error.mpr hends) hgives
  | ok info =>
    rw [hresult] at hextracted
    obtain ⟨cs, hcs, size, rfl, hsize⟩ := hextracted.record info rfl
    cases hcs
    have height := (hsize (some 8)).mp (.constant _ 8 rfl rfl rfl (by decide))
    obtain ⟨w, rfl, hw⟩ := Option.map_eq_some_iff.mp height
    exact ⟨w, rfl, by omega⟩

end Walk

end Dwarf

end ElfScope
