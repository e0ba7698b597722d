import Mathlib
import ElfScope.Proofs.Bytes.Results
import ElfScope.Proofs.Dwarf.Growth

/-! # Values of decoded entries

The form of an attribute tells what its value is: an address is a number of eight bytes at most, and a
constant a number of any size and sign. Looking strings and indices up does not change that, since none
of these forms is looked up.
-/
namespace ElfScope.Dwarf

open Decoder

namespace Form

/-- What the value of a form is, as far as sizes, offsets and addresses are told by it. -/
structure Holds (form : Form) (v : Value) : Prop where
  address : form = .addr → ∃ n : Nat, v = .number n ∧ n < 2 ^ 64
  constant : form.isConstant = true → ∃ n, v = .number n

/-- A form whose values are looked up holds anything. -/
theorem holds_of_lookedUp {form : Form}
    (h : form.indexed?.isSome = true ∨ form = .strp ∨ form = .lineStrp) (v : Value) :
    form.Holds v := by
  constructor
  · rintro rfl
    simp [indexed?] at h
  · intro hform
    cases form <;> simp [indexed?, isConstant] at h hform

section
variable {e : Encoding} {form : Form}

theorem yields_address (he : e.addressSize = 4 ∨ e.addressSize = 8) :
    (decoder e .addr).Yields fun v => ∃ n : Nat, v = .number n ∧ n < 2 ^ 64 := by
  refine (yields_number .little e.addressSize).bind fun n hn => yields_pure ⟨n, rfl, ?_⟩
  rcases he with he | he
  · rw [he] at hn
    exact hn.trans (by decide)
  · rw [he] at hn
    exact hn.trans_eq (by decide)

theorem yields_constant (hform : form.isConstant = true) (hne : form ≠ .implicitConst) :
    (decoder e form).Yields fun v => ∃ n, v = .number n := by
  cases form <;> first
    | exact absurd hform Bool.false_ne_true
    | exact absurd rfl hne
    | exact yields_bind fun n => yields_pure ⟨n, rfl⟩

theorem yields_holds (he : e.addressSize = 4 ∨ e.addressSize = 8) (hne : form ≠ .implicitConst) :
    (decoder e form).Yields form.Holds := by
  intro bs v rest h
  refine ⟨?_, fun hform => ?_⟩
  · rintro rfl
    exact yields_address he bs v rest h
  · exact yields_constant hform hne bs v rest h

end

end Form

namespace CompileUnit
variable {s : DebugSections} {u : CompileUnit}

/-! ### Attributes -/

theorem holds_of_decoder (hu : u ∈ units s) {form : Form} (hne : form ≠ .implicitConst)
    {bs : Bytes} {r : Value × Bytes} (h : (form.decoder u.encoding bs).toOption = some r) :
    form.Holds r.1 := by
  cases hread : form.decoder u.encoding bs with
  | error e =>
    rw [hread] at h
    cases h
  | ok r' =>
    rw [hread] at h
    obtain rfl := Option.some.inj h
    exact Form.yields_holds (supported_of_at? (at?_of_mem_units hu)).addressSize hne bs r'.1 r'.2 hread

theorem holds_indirectValue? (hu : u ∈ units s) {fuel : Nat} {bs rest : Bytes} {form : Form}
    {v : Value} (h : indirectValue? u fuel bs = some (form, v, rest)) : form.Holds v := by
  induction fuel generalizing bs with
  | zero => cases h
  | succ fuel ih =>
    unfold indirectValue? at h
    obtain ⟨⟨code, tail⟩, -, h⟩ := Option.bind_eq_some_iff.mp h
    obtain ⟨form', -, h⟩ := Option.bind_eq_some_iff.mp h
    split at h
    · cases h
    · exact ih h
    · next hne _ =>
      obtain ⟨r, hread, h⟩ := Option.bind_eq_some_iff.mp h
      cases h
      exact holds_of_decoder hu hne hread

theorem holds_value? (hu : u ∈ units s) {spec : AttributeSpec} {bs rest : Bytes} {form : Form}
    {v : Value} (h : value? u spec bs = some (form, v, rest)) : form.Holds v := by
  unfold value? at h
  obtain ⟨form', -, h⟩ := Option.bind_eq_some_iff.mp h
  split at h
  · cases h
    refine ⟨fun hform => ?_, fun _ => ⟨_, rfl⟩⟩
    cases hform
  · exact holds_indirectValue? hu h
  · next hne _ =>
    obtain ⟨r, hread, h⟩ := Option.bind_eq_some_iff.mp h
    cases h
    exact holds_of_decoder hu hne hread

/-- Looking a value up leaves it as it is, unless the form is one whose values are looked up. -/
theorem holds_resolve? {bases : Option Attributes} {form : Form} {v v' : Value} (hv : form.Holds v)
    (h : resolve? s u bases form v = some v') : form.Holds v' := by
  unfold resolve? at h
  split at h
  · exact Form.holds_of_lookedUp (.inr (.inl rfl)) v'
  · exact Form.holds_of_lookedUp (.inr (.inr rfl)) v'
  · split at h
    · next hindexed => exact Form.holds_of_lookedUp (.inl (by rw [hindexed]; rfl)) v'
    · exact Option.some.inj h ▸ hv
  · exact Option.some.inj h ▸ hv

end CompileUnit

/-- All values are what their forms tell. -/
def Attributes.Sound (as : Attributes) : Prop := ∀ a ∈ as, a.form.Holds a.value

theorem Attributes.mem_set {a b : Attribute} {as : Attributes} (h : b ∈ as.set a) :
    b = a ∨ b ∈ as := by
  induction as with
  | nil => exact .inl (List.mem_singleton.mp h)
  | cons c as ih =>
    unfold set at h
    split_ifs at h
    · exact (List.mem_cons.mp h).imp_right (List.mem_cons_of_mem c)
    · rcases List.mem_cons.mp h with rfl | h
      · exact .inr List.mem_cons_self
      · exact (ih h).imp_right (List.mem_cons_of_mem c)

theorem Attributes.Sound.set {as : Attributes} (has : as.Sound) {a : Attribute}
    (ha : a.form.Holds a.value) : (as.set a).Sound := by
  intro b hb
  rcases Attributes.mem_set hb with rfl | hb
  · exact ha
  · exact has b hb

namespace CompileUnit
variable {s : DebugSections} {u : CompileUnit}

theorem sound_attributes? (hu : u ∈ units s) {bases : Option Attributes} {specs : List AttributeSpec}
    {as as' : Attributes} {bs rest : Bytes} (has : as.Sound)
    (h : attributes? s u bases specs as bs = some (as', rest)) : as'.Sound := by
  induction specs generalizing as bs with
  | nil =>
    cases h
    exact has
  | cons spec specs ih =>
    unfold attributes? at h
    obtain ⟨⟨form, v, tail⟩, hvalue, h⟩ := Option.bind_eq_some_iff.mp h
    obtain ⟨v', hresolve, h⟩ := Option.bind_eq_some_iff.mp h
    exact ih (has.set (holds_resolve? (holds_value? hu hvalue) hresolve)) h

theorem sound_die? (hu : u ∈ units s) {bases : Option Attributes} {o : Nat} {d : Die}
    (h : die? s u bases o = some d) : d.attributes.Sound := by
  have hnew : Attributes.Sound [] := fun _ ha => absurd ha List.not_mem_nil
  unfold die? at h
  obtain ⟨p, -, h⟩ := Option.bind_eq_some_iff.mp h
  dsimp only at h
  split_ifs at h
  · cases h
    exact hnew
  · obtain ⟨table, -, h⟩ := Option.bind_eq_some_iff.mp h
    obtain ⟨abbreviation, -, h⟩ := Option.bind_eq_some_iff.mp h
    obtain ⟨⟨as, rest⟩, hread, h⟩ := Option.bind_eq_some_iff.mp h
    cases h
    exact sound_attributes? hu hnew hread

/-- Also where an index cannot be resolved. -/
theorem sound_resolveAll {codes : List Nat} {as : Attributes} (has : as.Sound) :
    (resolveAll s u codes as).1.Sound := by
  induction codes generalizing as with
  | nil => exact has
  | cons code codes ih =>
    unfold resolveAll
    cases hget : as.get? code with
    | none => exact ih has
    | some a =>
      have ha := has a (List.mem_of_find?_eq_some hget)
      dsimp only
      split_ifs
      · exact ih has
      · cases hresolve : resolve? s u (some as) a.form a.value with
        | none => exact has
        | some v => exact ih (has.set (holds_resolve? ha hresolve))

/-! ### Entries -/

/-- The memories of a unit that decoding leads to. -/
inductive Remembers (s : DebugSections) (u : CompileUnit) : Memory → Prop where
  | new : Remembers s u {}
  | top (m : Memory) (h : Remembers s u m) : Remembers s u (outcome (topDie s u) m).2
  | entry (m : Memory) (h : Remembers s u m) (o : Nat) : Remembers s u (outcome (dieAt s u o) m).2

/-- The entries that decoding gives, as the top or at an offset, whatever was decoded before. -/
def Produces (s : DebugSections) (u : CompileUnit) (d : Die) : Prop :=
  ∃ m, Remembers s u m ∧
    ((outcome (topDie s u) m).1 = .ok d ∨ ∃ o, (outcome (dieAt s u o) m).1 = .ok d)

/-- Sound entries are remembered, and one of them is given. -/
def GivesSound (act : Reading Die) : Prop :=
  ∀ m : Memory, (∀ d ∈ m.entries, d.attributes.Sound) →
    (∀ d ∈ (outcome act m).2.entries, d.attributes.Sound) ∧
    ∀ d, (outcome act m).1 = .ok d → d.attributes.Sound

theorem givesSound_topDie (hu : u ∈ units s) : GivesSound (topDie s u) := by
  rintro ⟨top, others⟩ hm
  cases top with
  | some t =>
    rw [outcome_topDie_some]
    refine ⟨hm, fun d hd => ?_⟩
    cases hd
    exact hm t List.mem_cons_self
  | none =>
    rw [outcome_topDie_none]
    cases hfirst : die? s u none u.start with
    | none =>
      refine ⟨hm, fun d hd => ?_⟩
      cases hd
    | some d =>
      have hsound :=
        @sound_resolveAll s u (d.attributes.map (·.code)) d.attributes (sound_die? hu hfirst)
      refine ⟨List.forall_mem_cons.mpr ⟨hsound, hm⟩, fun d' hd' => ?_⟩
      dsimp only at hd'
      split_ifs at hd'
      cases hd'
      exact hsound

theorem givesSound_dieAt (hu : u ∈ units s) (o : Nat) : GivesSound (dieAt s u o) := by
  intro m hm
  obtain ⟨hafter, hgiven⟩ := givesSound_topDie hu m hm
  rw [outcome_dieAt]
  rcases htop : outcome (topDie s u) m with ⟨e | top, m'⟩ <;> rw [htop] at hafter
  · refine ⟨hafter, fun d hd => ?_⟩
    cases hd
  · dsimp only
    cases hfind : m'.find? o with
    | some d =>
      refine ⟨hafter, fun d' hd' => ?_⟩
      cases hd'
      exact hafter d (List.mem_of_find?_eq_some hfind)
    | none =>
      cases hd : die? s u (some top.attributes) o with
      | none =>
        refine ⟨hafter, fun d' hd' => ?_⟩
        cases hd'
      | some d =>
        have hsound := sound_die? hu hd
        refine ⟨fun d' hd' => ?_, fun d' hd' => ?_⟩
        · rcases Memory.mem_entries_add.mp hd' with rfl | hd'
          · exact hsound
          · exact hafter d' hd'
        · cases hd'
          exact hsound

theorem sound_of_remembers (hu : u ∈ units s) {m : Memory} (h : Remembers s u m) :
    ∀ d ∈ m.entries, d.attributes.Sound := by
  induction h with
  | new => exact fun d hd => absurd hd List.not_mem_nil
  | top m _ ih => exact (givesSound_topDie hu m ih).1
  | entry m _ o ih => exact (givesSound_dieAt hu o m ih).1

theorem sound_of_produces (hu : u ∈ units s) {d : Die} (h : Produces s u d) :
    d.attributes.Sound := by
  obtain ⟨m, hm, htop | ⟨o, hentry⟩⟩ := h
  · exact (givesSound_topDie hu m (sound_of_remembers hu hm)).2 d htop
  · exact (givesSound_dieAt hu o m (sound_of_remembers hu hm)).2 d hentry

end CompileUnit

/-- A value that is found under a code is what its form tells. -/
theorem Die.holds_attribute? {d : Die} (hd : d.attributes.Sound) {code : Nat} {a : Attribute}
    (h : d.attribute? code = some a) : a.form.Holds a.value :=
  hd a (List.mem_of_find?_eq_some h)

end ElfScope.Dwarf
