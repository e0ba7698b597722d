import Mathlib
import ElfScope.Proofs.Bytes.Locality
import ElfScope.Proofs.Bytes.Results
import ElfScope.Proofs.Dwarf.Plain

/-! # Outlines of entries

Size, tag, children and sibling reference of an entry are read from its own bytes. The bases that its
indices are looked up with decide whether it can be decoded and what the indices stand for, and
nothing else.
-/
namespace ElfScope.Dwarf

/-! ### Headers are read from their own bytes -/

open Decoder in
theorem UnitHeader.local_kindFields (size kind : Nat) : Decoder.Local (UnitHeader.kindFields size kind) := by
  unfold UnitHeader.kindFields
  split
  · exact local_pure ()
  · exact local_pure ()
  · exact (local_number _ _).bind fun _ => local_pure ()
  · exact (local_number _ _).bind fun _ => local_pure ()
  · exact (local_number _ _).bind fun _ => (local_number _ _).bind fun _ => local_pure ()
  · exact (local_number _ _).bind fun _ => (local_number _ _).bind fun _ => local_pure ()
  · exact local_throw _

open Decoder in
theorem UnitHeader.local_decoder : Decoder.Local UnitHeader.decoder := by
  unfold UnitHeader.decoder
  refine (local_number _ _).bind fun first => .ite (fun _ => local_throw_bind _ _) fun _ => ?_
  refine .ite (fun _ => (local_number _ _).bind fun length => ?_)
    fun _ => (local_pure _).bind fun length => ?_
  all_goals
    refine (local_number _ _).bind fun version => .ite (fun _ => local_throw_bind _ _) fun _ => ?_
    refine .ite (fun _ => ?_) fun _ => ?_
    · exact (local_number _ _).bind fun _ => (local_number _ _).bind fun _ =>
        (local_pure _).bind fun _ => .ite (fun _ => local_throw_bind _ _) fun _ => local_pure _
    · exact (local_number _ _).bind fun _ => (local_number _ _).bind fun _ =>
        (local_number _ _).bind fun _ => (UnitHeader.local_kindFields _ _).bind fun _ =>
          (local_pure _).bind fun _ => .ite (fun _ => local_throw_bind _ _) fun _ => local_pure _

/-- Where a header can be read at all, it is what its own bytes are. -/
theorem CompileUnit.at?_local {s : DebugSections} {u : CompileUnit} {o : Nat} (h : CompileUnit.at? s o = some u) :
    ∃ front rest, s.info.drop o = front ++ rest ∧ front ≠ [] ∧ u.start = o + front.length ∧
      Decoder.Reads UnitHeader.decoder front u.header := by
  unfold CompileUnit.at? at h
  split at h
  · cases h
  · next header rest hread =>
    cases h
    obtain ⟨front, hfront, hreads⟩ := UnitHeader.local_decoder _ _ _ hread
    have hne : front ≠ [] := by
      rintro rfl
      have hempty := hreads []
      cases hempty
    have hpos := List.length_pos_iff.mpr hne
    have hlength := congrArg List.length hfront
    rw [List.length_drop, List.length_append] at hlength
    refine ⟨front, rest, hfront, hne, ?_, hreads⟩
    change s.info.length - rest.length = _
    omega

/-- The versions and address sizes of the headers that can be read. -/
structure Encoding.Supported (e : Encoding) : Prop where
  version : 2 ≤ e.version ∧ e.version ≤ 5
  addressSize : e.addressSize = 4 ∨ e.addressSize = 8

open Decoder in
theorem UnitHeader.yields_decoder : UnitHeader.decoder.Yields (·.encoding.Supported) := by
  have hsize (n : Nat) (h : ¬(n ≠ 4 ∧ n ≠ 8)) : n = 4 ∨ n = 8 := by omega
  unfold UnitHeader.decoder
  refine yields_bind fun first => .ite (fun _ => yields_throw_bind _ _) fun _ => ?_
  refine .ite (fun _ => yields_bind fun length => ?_) fun _ => yields_bind fun length => ?_
  all_goals
    refine yields_bind fun version => .ite (fun _ => yields_throw_bind _ _) fun hversion => ?_
    have hsupported : 2 ≤ version ∧ version ≤ 5 := by omega
    refine .ite (fun _ => ?_) fun _ => ?_
    · refine yields_bind fun _ => yields_bind fun _ => yields_bind fun p => ?_
      exact .ite (fun _ => yields_throw_bind _ _) fun h => yields_pure ⟨hsupported, hsize p.2 h⟩
    · refine yields_bind fun _ => yields_bind fun _ => yields_bind fun _ => yields_bind fun _ =>
        yields_bind fun p => ?_
      exact .ite (fun _ => yields_throw_bind _ _) fun h => yields_pure ⟨hsupported, hsize p.2 h⟩

theorem CompileUnit.supported_of_at? {s : DebugSections} {u : CompileUnit} {o : Nat}
    (h : CompileUnit.at? s o = some u) : u.encoding.Supported := by
  obtain ⟨front, -, -, -, -, hreads⟩ := CompileUnit.at?_local h
  exact UnitHeader.yields_decoder _ u.header [] (hreads [])

/-! ### Entries are read from their own bytes -/

theorem Form.local_decoder (e : Encoding) (f : Form) : (f.decoder e).Local := by
  have hnumber (width : Nat) : (Form.unsigned width).Local :=
    (Decoder.local_number .little width).bind fun _ => Decoder.local_pure _
  have hleb : Form.leb.Local := Leb128.local_unsigned.bind fun _ => Decoder.local_pure _
  have htake (n : Nat) : (do return Value.block (← Decoder.take n) : Decoder Value).Local :=
    (Decoder.local_take n).bind fun _ => Decoder.local_pure _
  have hsized (width : Nat) : (Form.sizedBlock width).Local :=
    (Decoder.local_number .little width).bind htake
  have hblock : (do return Value.block (← Decoder.take (← Leb128.unsigned)) :
      Decoder Value).Local := Leb128.local_unsigned.bind htake
  cases f
  case sdata => exact Leb128.local_signed.bind fun _ => Decoder.local_pure _
  case string => exact Decoder.local_nulTerminated.bind fun _ => Decoder.local_pure _
  case flag => exact (Decoder.local_number .little 1).bind fun _ => Decoder.local_pure _
  all_goals first
    | exact hnumber _
    | exact hleb
    | exact hsized _
    | exact hblock
    | exact htake 16
    | exact Decoder.local_pure _

namespace CompileUnit
variable {s : DebugSections} {u : CompileUnit}

theorem decoder_local {f : Form} {bs rest : Bytes} {v : Value}
    (h : (f.decoder u.encoding bs).toOption = some (v, rest)) :
    ∃ front, bs = front ++ rest ∧
      ∀ tail, (f.decoder u.encoding (front ++ tail)).toOption = some (v, tail) := by
  cases hr : f.decoder u.encoding bs with
  | error e =>
    rw [hr] at h
    cases h
  | ok r =>
    rw [hr] at h
    cases h
    obtain ⟨front, hfront, hread⟩ := f.local_decoder u.encoding bs _ _ hr
    exact ⟨front, hfront, fun tail => congrArg Except.toOption (hread tail)⟩

/-- Each indirection takes a byte, so the bytes taken are enough to bound them. -/
theorem indirectValue?_local {fuel : Nat} {bs rest : Bytes} {f : Form} {v : Value}
    (h : indirectValue? u fuel bs = some (f, v, rest)) :
    ∃ front, bs = front ++ rest ∧ ∀ tail fuel, front.length < fuel →
      indirectValue? u fuel (front ++ tail) = some (f, v, tail) := by
  induction fuel generalizing bs with
  | zero => cases h
  | succ fuel ih =>
    rw [indirectValue?] at h
    obtain ⟨⟨code, bs'⟩, hcode, h⟩ := Option.bind_eq_some_iff.mp h
    obtain ⟨form, hform, h⟩ := Option.bind_eq_some_iff.mp h
    obtain ⟨front, rfl, hne, hread⟩ := Leb128.unsigned?_local hcode
    have hpos := List.length_pos_iff.mpr hne
    -- The bytes that are left after the code of the form decide the value.
    have hmore {more : Bytes} (hsplit : bs' = more ++ rest)
        (hvalue : ∀ tail k, more.length < k →
          indirectValue? u (k + 1) (front ++ (more ++ tail)) = some (f, v, tail)) :
        ∃ front', front ++ bs' = front' ++ rest ∧ ∀ tail fuel, front'.length < fuel →
          indirectValue? u fuel (front' ++ tail) = some (f, v, tail) := by
      refine ⟨front ++ more, ?_, fun tail fuel hfuel => ?_⟩
      · rw [hsplit, List.append_assoc]
      · rw [List.length_append] at hfuel
        obtain ⟨k, rfl⟩ : ∃ k, fuel = k + 1 := ⟨fuel - 1, by omega⟩
        rw [List.append_assoc]
        exact hvalue tail k (by omega)
    cases form
    case implicitConst => cases h
    case indirect =>
      obtain ⟨more, hsplit, hrest⟩ := ih h
      refine hmore hsplit fun tail k hk => ?_
      rw [indirectValue?, hread]
      simp only [Option.bind_eq_bind, Option.bind_some, hform]
      exact hrest tail k hk
    all_goals
      obtain ⟨⟨value, rest'⟩, hdecode, heq⟩ := Option.bind_eq_some_iff.mp h
      cases heq
      obtain ⟨more, hsplit, hdecoder⟩ := decoder_local hdecode
      refine hmore hsplit fun tail k hk => ?_
      rw [indirectValue?, hread]
      simp only [Option.bind_eq_bind, Option.bind_some, hform, hdecoder]
      rfl

theorem value?_local {spec : AttributeSpec} {bs rest : Bytes} {f : Form} {v : Value}
    (h : value? u spec bs = some (f, v, rest)) :
    ∃ front, bs = front ++ rest ∧
      ∀ tail, value? u spec (front ++ tail) = some (f, v, tail) := by
  unfold value? at h ⊢
  obtain ⟨form, hform, h⟩ := Option.bind_eq_some_iff.mp h
  rw [hform]
  simp only [Option.bind_eq_bind, Option.bind_some]
  cases form
  case implicitConst =>
    cases h
    exact ⟨[], rfl, fun tail => rfl⟩
  case indirect =>
    obtain ⟨front, hfront, hread⟩ := indirectValue?_local h
    refine ⟨front, hfront, fun tail => hread tail _ ?_⟩
    rw [List.length_append]
    omega
  all_goals
    obtain ⟨⟨value, rest'⟩, hdecode, heq⟩ := Option.bind_eq_some_iff.mp h
    cases heq
    obtain ⟨front, hfront, hread⟩ := decoder_local hdecode
    exact ⟨front, hfront, fun tail => by simp only [hread]; rfl⟩

/-- Where attributes can be read at all, bases decide what they are but not which bytes they take. -/
theorem attributes?_local {specs : List AttributeSpec} {as as' : Attributes} {bs rest : Bytes}
    (h : attributes? s u none specs as bs = some (as', rest)) :
    ∃ front, bs = front ++ rest ∧ ∀ info bases as tail,
      attributes? { s with info } u bases specs as (front ++ tail) =
        (attributes? s u bases specs as bs).map fun r => (r.1, tail) := by
  induction specs generalizing as bs with
  | nil =>
    cases h
    exact ⟨[], rfl, fun _ _ _ _ => rfl⟩
  | cons spec specs ih =>
    rw [attributes?] at h
    obtain ⟨⟨f, v, bs'⟩, hvalue, hspecs⟩ := Option.bind_eq_some_iff.mp h
    obtain ⟨w, -, hspecs⟩ := Option.bind_eq_some_iff.mp hspecs
    obtain ⟨front, rfl, hread⟩ := value?_local hvalue
    obtain ⟨more, rfl, hmore⟩ := ih hspecs
    refine ⟨front ++ more, (List.append_assoc _ _ _).symm, fun info bases as tail => ?_⟩
    rw [attributes?, attributes?, List.append_assoc, hread, hvalue]
    simp only [Option.bind_eq_bind, Option.bind_some]
    change Option.bind (resolve? s u bases f v) _ = _
    cases resolve? s u bases f v with
    | none => rfl
    | some w => exact hmore info bases _ tail

/-- Where an entry can be read at all, it is what its own bytes are, whatever stands around them. -/
theorem die?_local {offset : Nat} {d : Die} (h : die? s u none offset = some d) :
    ∃ front rest, s.info.drop offset = front ++ rest ∧ front ≠ [] ∧ d.size = front.length ∧
      ∀ info tail, info.drop offset = front ++ tail →
        ∀ bases, die? { s with info } u bases offset = die? s u bases offset := by
  unfold die? at h ⊢
  obtain ⟨⟨code, bs⟩, hcode, h⟩ := Option.bind_eq_some_iff.mp h
  obtain ⟨front, hfront, hne, hread⟩ := Leb128.unsigned?_local hcode
  have hsize {info piece tail : Bytes} (hdrop : info.drop offset = piece ++ tail)
      (hpiece : piece ≠ []) : info.length - tail.length - offset = piece.length := by
    have hlength := congrArg List.length hdrop
    have hpos := List.length_pos_iff.mpr hpiece
    rw [List.length_drop, List.length_append] at hlength
    omega
  simp only at h
  split_ifs at h with hc
  · cases h
    refine ⟨front, bs, hfront, hne, hsize hfront hne, fun info tail hdrop bases => ?_⟩
    rw [hdrop, hread, hcode]
    simp only [Option.bind_eq_bind, Option.bind_some, if_pos hc, hsize hfront hne,
      hsize hdrop hne]
  · obtain ⟨table, htable, h⟩ := Option.bind_eq_some_iff.mp h
    obtain ⟨abbreviation, habbreviation, h⟩ := Option.bind_eq_some_iff.mp h
    obtain ⟨⟨as, rest⟩, has, heq⟩ := Option.bind_eq_some_iff.mp h
    obtain ⟨more, rfl, hmore⟩ := attributes?_local has
    cases heq
    have hall : s.info.drop offset = (front ++ more) ++ rest := by
      rw [hfront, List.append_assoc]
    have hne' : front ++ more ≠ [] := List.append_ne_nil_of_left_ne_nil hne _
    refine ⟨front ++ more, rest, hall, hne', hsize hall hne', fun info tail hdrop bases => ?_⟩
    rw [hdrop, List.append_assoc, hread, hcode]
    simp only [Option.bind_eq_bind, Option.bind_some, if_neg hc, htable, habbreviation]
    rw [hmore]
    have hrest : attributes? s u bases abbreviation.attributes [] (more ++ rest) =
        (attributes? s u bases abbreviation.attributes [] (more ++ rest)).map
          fun r => (r.1, rest) := hmore s.info bases [] rest
    cases hr : attributes? s u bases abbreviation.attributes [] (more ++ rest) with
    | none => rfl
    | some r =>
      rw [hr] at hrest
      obtain ⟨as', rest'⟩ := r
      cases hrest
      simp only [Option.map_some, Option.bind_some, hsize hall hne', hsize hdrop hne']

end CompileUnit

/-! ### What bases do not change -/

/-- The attributes differ at most in what an index stands for. -/
structure Attribute.Alike (a b : Attribute) : Prop where
  code : a.code = b.code
  form : a.form = b.form
  value : a.form.indexed? = none → a.value = b.value

namespace Attributes

abbrev Alike (as bs : Attributes) : Prop := List.Forall₂ Attribute.Alike as bs

theorem Alike.refl (as : Attributes) : Alike as as :=
  List.forall₂_same.mpr fun _ _ => ⟨rfl, rfl, fun _ => rfl⟩

variable {as bs : Attributes} {a b : Attribute}

theorem Alike.set (h : Alike as bs) (hab : a.Alike b) : Alike (as.set a) (bs.set b) := by
  induction h with
  | nil => exact .cons hab .nil
  | @cons a' b' as bs ha h ih =>
    rw [Attributes.set, Attributes.set, ha.code, hab.code]
    split_ifs
    · exact .cons hab h
    · exact .cons ha ih

theorem Alike.get? (h : Alike as bs) (code : Nat) :
    Option.Rel Attribute.Alike (as.get? code) (bs.get? code) := by
  induction h with
  | nil => exact .none
  | @cons a b as bs ha h ih =>
    rw [Attributes.get?, Attributes.get?, List.find?_cons, List.find?_cons, ha.code]
    by_cases hc : b.code = code
    · simp only [hc, decide_true]
      exact .some ha
    · simp only [hc, decide_false]
      exact ih

/-- Replacing the value of an index. -/
theorem alike_set_value {code : Nat} (h : as.get? code = some a) (hindexed : a.form.indexed? ≠ none)
    (value : Value) : Alike as (as.set { a with value }) := by
  have hcode : a.code = code := by simpa using List.find?_some h
  induction as with
  | nil => cases h
  | cons c as ih =>
    rw [Attributes.get?, List.find?_cons] at h
    rw [Attributes.set]
    by_cases hc : c.code = code
    · simp only [hc, decide_true] at h
      cases h
      rw [if_pos rfl]
      exact .cons ⟨rfl, rfl, fun hn => absurd hn hindexed⟩ (Alike.refl as)
    · simp only [hc, decide_false] at h
      rw [if_neg (by rwa [hcode])]
      exact .cons ⟨rfl, rfl, fun _ => rfl⟩ (ih h)

theorem Alike.trans {cs : Attributes} (h : Alike as bs) (h' : Alike bs cs) : Alike as cs := by
  induction h generalizing cs with
  | nil => exact h'
  | cons ha _ ih =>
    cases h' with
    | cons hb h' =>
      exact .cons ⟨ha.code.trans hb.code, ha.form.trans hb.form,
        fun hn => (ha.value hn).trans (hb.value (ha.form ▸ hn))⟩ (ih h')

end Attributes

/-- What the way through the entries of a unit depends on. -/
structure Outline where
  size : Nat
  tag : Option Nat
  hasChildren : Bool
  /-- The sibling reference, if there is one, and where it leads. -/
  link : Option (Option Nat)
deriving DecidableEq

namespace CompileUnit
variable {s : DebugSections} {u : CompileUnit}

theorem resolve?_of_indexed?_none {f : Form} (h : f.indexed? = none) (bases : Option Attributes)
    (v : Value) : resolve? s u bases f v = resolve? s u none f v := by
  cases f <;> cases v <;> first | rfl | cases h

theorem resolve?_none_of_indexed? {f : Form} (h : f.indexed? ≠ none) (v : Value) :
    resolve? s u none f v = some v := by
  cases f <;> cases v <;> first | rfl | exact absurd rfl h

theorem attributes?_alike {bases : Option Attributes} {specs : List AttributeSpec}
    {as as' r : Attributes} {bs rest : Bytes} (halike : as.Alike as')
    (h : attributes? s u bases specs as bs = some (r, rest)) :
    ∃ r', attributes? s u none specs as' bs = some (r', rest) ∧ r.Alike r' := by
  induction specs generalizing as as' bs with
  | nil =>
    cases h
    exact ⟨as', rfl, halike⟩
  | cons spec specs ih =>
    rw [attributes?] at h ⊢
    obtain ⟨⟨f, v, bs'⟩, hvalue, h⟩ := Option.bind_eq_some_iff.mp h
    obtain ⟨w, hw, h⟩ := Option.bind_eq_some_iff.mp h
    rw [hvalue]
    simp only [Option.bind_eq_bind, Option.bind_some]
    by_cases hindexed : f.indexed? = none
    · rw [resolve?_of_indexed?_none hindexed] at hw
      rw [hw]
      exact ih (halike.set ⟨rfl, rfl, fun _ => rfl⟩) h
    · have halike' : Attribute.Alike ⟨spec.code, f, w⟩ ⟨spec.code, f, v⟩ :=
        ⟨rfl, rfl, fun hn => absurd hn hindexed⟩
      rw [resolve?_none_of_indexed? hindexed]
      exact ih (halike.set halike') h

theorem alike_resolveAll (codes : List Nat) (as : Attributes) :
    as.Alike (resolveAll s u codes as).1 := by
  induction codes generalizing as with
  | nil => exact Attributes.Alike.refl as
  | cons code codes ih =>
    rw [resolveAll]
    cases hget : as.get? code with
    | none => exact ih as
    | some a =>
      simp only
      split_ifs with hindexed
      · exact ih as
      · cases resolve? s u (some as) a.form a.value with
        | none => exact Attributes.Alike.refl as
        | some value =>
          have hset := Attributes.alike_set_value hget (by simpa using hindexed) value
          exact hset.trans (ih _)

variable (u)

def outline (d : Die) : Outline where
  size := d.size
  tag := d.tag
  hasChildren := d.hasChildren
  link := (d.attribute? AttributeCode.sibling).map u.siblingTarget

@[simp] theorem outline_size (d : Die) : (u.outline d).size = d.size := rfl

@[simp] theorem outline_tag (d : Die) : (u.outline d).tag = d.tag := rfl

@[simp] theorem outline_hasChildren (d : Die) : (u.outline d).hasChildren = d.hasChildren := rfl

variable (s) in
/-- The outline of the entry at an offset, if there is one. -/
def outline? (offset : Nat) : Option Outline := (die? s u none offset).map u.outline

variable {u}

theorem siblingTarget_alike {a b : Attribute} (h : a.Alike b) :
    u.siblingTarget a = u.siblingTarget b := by
  obtain ⟨code, form, value⟩ := a
  obtain ⟨code', form', value'⟩ := b
  obtain ⟨-, rfl, hvalue⟩ := h
  by_cases hindexed : form.indexed? = none
  · cases hvalue hindexed
    rfl
  · unfold siblingTarget
    cases form <;> first | exact absurd rfl hindexed | rfl

theorem outline_alike {d : Die} {as : Attributes} (h : d.attributes.Alike as) :
    u.outline { d with attributes := as } = u.outline d := by
  have hlink : (as.get? AttributeCode.sibling).map u.siblingTarget =
      (d.attributes.get? AttributeCode.sibling).map u.siblingTarget := by
    have hrel := h.get? AttributeCode.sibling
    revert hrel
    generalize d.attributes.get? AttributeCode.sibling = a
    generalize as.get? AttributeCode.sibling = b
    intro hrel
    cases hrel with
    | none => rfl
    | some hab => exact congrArg some (siblingTarget_alike hab).symm
  unfold outline Die.attribute?
  rw [hlink]

/-- Bases do not change the outline of an entry. -/
theorem outline?_of_die? {bases : Option Attributes} {offset : Nat} {d : Die}
    (h : die? s u bases offset = some d) : outline? s u offset = some (u.outline d) := by
  unfold outline?
  unfold die? at h ⊢
  obtain ⟨⟨code, bs⟩, hcode, h⟩ := Option.bind_eq_some_iff.mp h
  rw [hcode]
  simp only [Option.bind_eq_bind, Option.bind_some] at h ⊢
  split_ifs at h ⊢
  · cases h
    rfl
  · obtain ⟨table, htable, h⟩ := Option.bind_eq_some_iff.mp h
    obtain ⟨abbreviation, habbreviation, h⟩ := Option.bind_eq_some_iff.mp h
    obtain ⟨⟨as, rest⟩, has, heq⟩ := Option.bind_eq_some_iff.mp h
    obtain ⟨as', has', halike⟩ := attributes?_alike (Attributes.Alike.refl []) has
    cases heq
    rw [htable]
    simp only [Option.bind_some, habbreviation, has']
    exact congrArg some (@outline_alike u ⟨_, _, _, _, as⟩ as' halike)

/-- An entry lies in the section, and takes a byte at least. -/
theorem outline?_size {offset : Nat} {x : Outline} (h : outline? s u offset = some x) :
    0 < x.size ∧ offset + x.size ≤ s.info.length := by
  obtain ⟨d, hd, rfl⟩ := Option.map_eq_some_iff.mp h
  obtain ⟨front, rest, hfront, hne, hsize, -⟩ := die?_local hd
  have hpos := List.length_pos_iff.mpr hne
  have hlength := congrArg List.length hfront
  rw [List.length_drop, List.length_append] at hlength
  change 0 < d.size ∧ offset + d.size ≤ _
  omega

/-- There are not more distinct offsets than bytes. -/
theorem length_le_of_nodup {offsets : List Nat} {limit : Nat} (h : offsets.Nodup)
    (hlt : ∀ o ∈ offsets, o < limit) : offsets.length ≤ limit := by
  have hsub : offsets ⊆ List.range limit := fun o ho => List.mem_range.mpr (hlt o ho)
  have hle := (h.subperm hsub).length_le
  rw [List.length_range] at hle
  exact hle

end CompileUnit

end ElfScope.Dwarf
