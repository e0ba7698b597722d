import Mathlib
import ElfScope.Dwarf.Symbol
import ElfScope.Proofs.Dwarf.Plain

/-! # Where names are taken from

A name is written in its entry, or is a string of a table that the entry tells the place of. Where two
sets of sections differ in their tables of strings alone, an entry is decoded from both or from neither,
and differs in the strings that were looked up. Whatever a table is, no look-up of a string fails because
of it.
-/
namespace ElfScope.Dwarf

/-- The same sections with other tables of strings. -/
def DebugSections.restring (s : DebugSections) (strings lineStrings : Bytes) : DebugSections :=
  { s with strings, lineStrings }

namespace DebugSections
variable (s : DebugSections) (strings lineStrings : Bytes)

@[simp] theorem restring_info : (s.restring strings lineStrings).info = s.info := rfl

@[simp] theorem restring_abbreviations :
    (s.restring strings lineStrings).abbreviations = s.abbreviations := rfl

@[simp] theorem restring_strings : (s.restring strings lineStrings).strings = strings := rfl

@[simp] theorem restring_lineStrings :
    (s.restring strings lineStrings).lineStrings = lineStrings := rfl

@[simp] theorem restring_addresses : (s.restring strings lineStrings).addresses = s.addresses := rfl

@[simp] theorem restring_stringOffsets :
    (s.restring strings lineStrings).stringOffsets = s.stringOffsets := rfl

@[simp] theorem restring_locationLists :
    (s.restring strings lineStrings).locationLists = s.locationLists := rfl

@[simp] theorem restring_rangeLists :
    (s.restring strings lineStrings).rangeLists = s.rangeLists := rfl

end DebugSections

/-- The string that starts at an offset, if a NUL ends it. -/
def Value.stringIn (table : Bytes) (offset : Nat) : Value :=
  match Bytes.beforeNul? (table.drop offset) with
  | some bs => .text bs
  | none => .absent

/-- What a look-up of a string comes to, and no number or block does. -/
def Value.isString : Value → Bool
  | .text _ | .absent => true
  | _ => false

theorem Value.isString_stringIn (table : Bytes) (offset : Nat) :
    (Value.stringIn table offset).isString = true := by
  unfold Value.stringIn
  cases Bytes.beforeNul? (table.drop offset) <;> rfl

theorem Value.stringIn_ne_number (table : Bytes) (offset : Nat) (n : Int) :
    Value.stringIn table offset ≠ .number n := by
  intro h
  have hstring := Value.isString_stringIn table offset
  rw [h] at hstring
  cases hstring

/-- Whether a string is looked up at all does not depend on the table. -/
theorem rel_stringAt? {table table' : Bytes} {offset : Int} {R : Value → Value → Prop}
    (h : R (.stringIn table offset.toNat) (.stringIn table' offset.toNat)) :
    Option.Rel R (stringAt? table offset) (stringAt? table' offset) := by
  unfold stringAt?
  by_cases hreach : reachable offset
  · rw [if_pos hreach, if_pos hreach]
    exact .some h
  · rw [if_neg hreach, if_neg hreach]
    exact .none

/-! ### Sources -/

/-- Where a name is taken from. -/
inductive NameSource where
  | missing
  | inline (bs : Bytes)
  | strings (offset : Nat)
  | lineStrings (offset : Nat)

namespace NameSource

/-- The text of a value, if it is one. -/
def textOf (default : Text) : Value → Text
  | .text bs => Utf8.decodeLossy bs
  | _ => default

/-- The name, or a default where there is none and where no string is at the offset. -/
def text (s : DebugSections) (default : Text) : NameSource → Text
  | missing => default
  | inline bs => Utf8.decodeLossy bs
  | strings offset => textOf default (.stringIn s.strings offset)
  | lineStrings offset => textOf default (.stringIn s.lineStrings offset)

end NameSource

namespace Attribute

def name (a : Attribute) (default : Text) : Text :=
  if a.form.isString then NameSource.textOf default a.value else default

/-- The source that an attribute tells of by itself, as it was written. -/
def source (w : Attribute) : NameSource :=
  match w.value, w.form with
  | .text bs, form => if form.isString then .inline bs else .missing
  | .number offset, .strp => .strings offset.toNat
  | .number offset, .lineStrp => .lineStrings offset.toNat
  | _, _ => .missing

/-- An attribute as it was written has a source of its own. An index into the offsets of strings has
also the one that it was looked up to be, from some base on. -/
def TakenFrom (s : DebugSections) (u : CompileUnit) (w : Attribute) (src : NameSource) : Prop :=
  src = w.source ∨ ∃ (index base : Int) (offset : Nat),
    w.form.indexed? = some .strings ∧ w.value = .number index ∧
      numberAt? s.stringOffsets u.encoding.offsetSize (base + index * u.encoding.offsetSize) =
        some offset ∧
      src = .strings offset

end Attribute

theorem Die.name_eq (d : Die) (default : Text) :
    d.name default = ((d.attribute? AttributeCode.name).map (·.name default)).getD default := by
  unfold Die.name
  rcases d.attribute? AttributeCode.name with _ | ⟨code, form, value⟩
  · rfl
  · cases value <;> cases hform : form.isString <;> simp [Attribute.name, NameSource.textOf, hform]

namespace CompileUnit

/-- The attributes as they are written, with nothing looked up. -/
def writtenFrom? (u : CompileUnit) : List AttributeSpec → Attributes → Bytes → Option Attributes
  | [], ws, _ => some ws
  | spec :: specs, ws, bs => do
    let (form, value, rest) ← value? u spec bs
    writtenFrom? u specs (ws.set ⟨spec.code, form, value⟩) rest

/-- The attributes of the entry at an offset as they are written. -/
def written? (s : DebugSections) (u : CompileUnit) (offset : Nat) : Option Attributes := do
  let (code, rest) ← Leb128.unsigned? (s.info.drop offset)
  if code = 0 then return []
  let abbreviation ← Abbreviation.find? (← u.table) code
  writtenFrom? u abbreviation.attributes [] rest

/-- What the entry at an offset is written with tells where its name is taken from. -/
def NamedBy (s : DebugSections) (u : CompileUnit) (offset : Nat) (src : NameSource) : Prop :=
  ∃ ws, u.written? s offset = some ws ∧
    (ws.get? AttributeCode.name).elim (src = .missing) (·.TakenFrom s u src)

end CompileUnit

/-! ### Values that are looked up in other tables -/

section
variable (s : DebugSections) (strings lineStrings : Bytes) (u : CompileUnit)

/-- The values that an attribute stands for in the two sets of sections. -/
inductive Value.Renamed (w : Attribute) : Value → Value → Prop where
  | other (v : Value) : w.form.isString = false → Value.Renamed w v v
  | kept : (∀ n, w.value = .number n → w.form ≠ .strp ∧ w.form ≠ .lineStrp) →
      Value.Renamed w w.value w.value
  | string (offset : Nat) : w.TakenFrom s u (.strings offset) →
      Value.Renamed w (.stringIn s.strings offset) (.stringIn strings offset)
  | lineString (offset : Nat) : w.TakenFrom s u (.lineStrings offset) →
      Value.Renamed w (.stringIn s.lineStrings offset) (.stringIn lineStrings offset)

/-- An attribute as it was written, and as it is decoded from the two sets of sections. -/
structure Attribute.Renamed (w a a' : Attribute) : Prop where
  code : a.code = w.code
  code' : a'.code = w.code
  form : a.form = w.form
  form' : a'.form = w.form
  value : Value.Renamed s strings lineStrings u w a.value a'.value

/-- What is found under a code: nothing in any of the three, or an attribute in each. -/
inductive Attributes.Found : Option Attribute → Option Attribute → Option Attribute → Prop where
  | none : Found none none none
  | some {w a a' : Attribute} : Attribute.Renamed s strings lineStrings u w a a' →
      Found (some w) (some a) (some a')

structure Attributes.Renamed (ws as as' : Attributes) : Prop where
  codes : as.map (·.code) = as'.map (·.code)
  found : ∀ code, Found s strings lineStrings u (ws.get? code) (as.get? code) (as'.get? code)

/-- Entries that are decoded at one offset. -/
structure Die.Renamed (d d' : Die) : Prop where
  offset : d.offset = d'.offset
  size : d.size = d'.size
  tag : d.tag = d'.tag
  hasChildren : d.hasChildren = d'.hasChildren
  attributes : ∃ ws, u.written? s d.offset = some ws ∧
    Attributes.Renamed s strings lineStrings u ws d.attributes d'.attributes

end

section
variable {s : DebugSections} {strings lineStrings : Bytes} {u : CompileUnit}

namespace Value.Renamed
variable {w : Attribute} {v v' : Value}

/-- Numbers and blocks are the same. -/
theorem eq_or (h : Renamed s strings lineStrings u w v v') :
    v = v' ∨ v.isString = true ∧ v'.isString = true := by
  cases h with
  | other _ _ => exact .inl rfl
  | kept _ => exact .inl rfl
  | string offset _ => exact .inr ⟨isString_stringIn _ _, isString_stringIn _ _⟩
  | lineString offset _ => exact .inr ⟨isString_stringIn _ _, isString_stringIn _ _⟩

end Value.Renamed

/-- A source in a table of strings is told of by a form that stands for a string. -/
theorem Attribute.TakenFrom.isString {w : Attribute} {src : NameSource} (h : w.TakenFrom s u src)
    (hsrc : src ≠ .missing) : w.form.isString = true := by
  obtain ⟨code, form, value⟩ := w
  rcases h with rfl | ⟨index, base, offset, hindexed, -, -, -⟩
  · cases value <;> cases form <;> first | rfl | exact absurd rfl hsrc
  · cases form <;> first | rfl | cases hindexed

/-- One source tells the name in both sections. -/
theorem Attribute.Renamed.exists_source {w a a' : Attribute}
    (h : Attribute.Renamed s strings lineStrings u w a a') :
    ∃ src, w.TakenFrom s u src ∧ ∀ default, a.name default = src.text s default ∧
      a'.name default = src.text (s.restring strings lineStrings) default := by
  obtain ⟨code, form, value⟩ := a
  obtain ⟨code', form', value'⟩ := a'
  obtain ⟨-, -, hform, hform', hvalue⟩ := h
  simp only at hform hform' hvalue
  subst hform hform'
  unfold Attribute.name
  cases hvalue with
  | other _ hstring =>
    have hsource : w.source = .missing := by
      obtain ⟨code, form, value⟩ := w
      cases value <;> cases form <;> first | rfl | cases hstring
    refine ⟨w.source, .inl rfl, fun default => ?_⟩
    rw [hsource]
    simp only [hstring]
    exact ⟨rfl, rfl⟩
  | kept hdirect =>
    refine ⟨w.source, .inl rfl, fun default => ?_⟩
    obtain ⟨code, form, value⟩ := w
    cases value with
    | number n =>
      obtain ⟨hstrp, hline⟩ := hdirect n rfl
      cases form <;> first | exact ⟨rfl, rfl⟩ | exact absurd rfl hstrp | exact absurd rfl hline
    | text bs => cases form <;> exact ⟨rfl, rfl⟩
    | block bs => cases form <;> exact ⟨rfl, rfl⟩
    | absent => cases form <;> exact ⟨rfl, rfl⟩
  | string offset htaken =>
    refine ⟨_, htaken, fun default => ?_⟩
    have hstring := htaken.isString (by simp)
    simp only [hstring]
    exact ⟨rfl, rfl⟩
  | lineString offset htaken =>
    refine ⟨_, htaken, fun default => ?_⟩
    have hstring := htaken.isString (by simp)
    simp only [hstring]
    exact ⟨rfl, rfl⟩

/-! ### Attributes -/

namespace Attributes
variable {ws as as' : Attributes} {w a a' : Attribute}

theorem get?_set (as : Attributes) (a : Attribute) (code : Nat) :
    (as.set a).get? code = if a.code = code then some a else as.get? code := by
  induction as with
  | nil => rw [set, get?, get?, List.find?_cons, List.find?_nil]; split_ifs <;> simp_all
  | cons b as ih =>
    rw [set]
    by_cases hb : b.code = a.code
    · rw [if_pos hb]
      simp only [get?, List.find?_cons, hb]
      by_cases hc : a.code = code <;> simp [hc]
    · rw [if_neg hb]
      simp only [get?, List.find?_cons] at ih ⊢
      by_cases hc : b.code = code
      · rw [if_neg (hc ▸ fun h => hb h.symm)]
        simp [hc]
      · simp only [hc, decide_false]
        exact ih

theorem codes_set (h : as.map (·.code) = as'.map (·.code)) (hcode : a.code = a'.code) :
    (as.set a).map (·.code) = (as'.set a').map (·.code) := by
  induction as generalizing as' with
  | nil =>
    obtain rfl := List.map_eq_nil_iff.mp h.symm
    exact congrArg (fun c => [c]) hcode
  | cons b as ih =>
    cases as' with
    | nil => cases h
    | cons b' as' =>
      obtain ⟨hhead, htail⟩ := List.cons.inj h
      have hb : b.code = b'.code := hhead
      rw [set, set, hb, hcode]
      split_ifs
      · rw [List.map_cons, List.map_cons, hcode, htail]
      · rw [List.map_cons, List.map_cons, hb, ih htail]

theorem Renamed.empty : Renamed s strings lineStrings u [] [] [] := ⟨rfl, fun _ => .none⟩

theorem Renamed.set (h : Renamed s strings lineStrings u ws as as')
    (ha : Attribute.Renamed s strings lineStrings u w a a') :
    Renamed s strings lineStrings u (ws.set w) (as.set a) (as'.set a') := by
  constructor
  · exact codes_set h.codes (ha.code.trans ha.code'.symm)
  · intro code
    rw [get?_set, get?_set, get?_set, ha.code, ha.code']
    by_cases hc : w.code = code
    · rw [if_pos hc, if_pos hc, if_pos hc]
      exact .some ha
    · rw [if_neg hc, if_neg hc, if_neg hc]
      exact h.found code

/-- Another value for an attribute that is there. -/
theorem Renamed.replace (h : Renamed s strings lineStrings u ws as as') (hw : ws.get? w.code = some w)
    (ha : Attribute.Renamed s strings lineStrings u w a a') :
    Renamed s strings lineStrings u ws (as.set a) (as'.set a') := by
  constructor
  · exact codes_set h.codes (ha.code.trans ha.code'.symm)
  · intro code
    rw [get?_set, get?_set, ha.code, ha.code']
    by_cases hc : w.code = code
    · rw [if_pos hc, if_pos hc, ← hc, hw]
      exact .some ha
    · rw [if_neg hc, if_neg hc]
      exact h.found code

/-- The bases are numbers, and those are the same. -/
def SameBases (as as' : Attributes) : Prop :=
  ∀ code, CompileUnit.baseOf? as code = CompileUnit.baseOf? as' code

theorem Renamed.sameBases (h : Renamed s strings lineStrings u ws as as') : SameBases as as' := by
  intro code
  have hfound := h.found code
  unfold CompileUnit.baseOf?
  generalize ws.get? code = w at hfound
  generalize as.get? code = a at hfound ⊢
  generalize as'.get? code = a' at hfound ⊢
  cases hfound with
  | none => rfl
  | @some w a a' ha =>
    obtain ⟨code, form, value⟩ := a
    obtain ⟨code', form', value'⟩ := a'
    rcases ha.value.eq_or with hsame | ⟨hstring, hstring'⟩
    · simp only at hsame
      subst hsame
      cases value <;> rfl
    · cases value <;> cases value' <;> first | rfl | cases hstring; done | cases hstring'

end Attributes

namespace CompileUnit
variable {bases bases' : Option Attributes} {w : Attribute} {v v' : Value}

open Attributes (SameBases)

theorem resolve?_of_ne_number (h : ∀ n, v ≠ .number n) (form : Form) :
    resolve? s u bases form v = some v := by
  cases v with
  | number n => exact absurd rfl (h n)
  | text bs => cases form <;> rfl
  | block bs => cases form <;> rfl
  | absent => cases form <;> rfl

theorem resolve?_indexed {form : Form} {table : IndexedTable} (h : form.indexed? = some table)
    (as : Attributes) (index : Int) :
    resolve? s u (some as) form (.number index) = lookup? s u as table index := by
  cases form <;> first | cases h; rfl | cases h

theorem resolve?_direct {form : Form} (hstrp : form ≠ .strp) (hline : form ≠ .lineStrp)
    (h : form.indexed? = none ∨ bases = none) (index : Int) :
    resolve? s u bases form (.number index) = some (.number index) := by
  rcases h with h | rfl
  · cases form <;> first | cases h; done | rfl | exact absurd rfl hstrp | exact absurd rfl hline
  · cases form <;> first | rfl | exact absurd rfl hstrp | exact absurd rfl hline

/-- A look-up comes to the same place, whatever strings are there. -/
theorem lookup?_renamed {as as' : Attributes} (h : SameBases as as') {table : IndexedTable}
    (htable : w.form.indexed? = some table) {index : Int}
    (hindex : w.form.isString = true → w.value = .number index) :
    Option.Rel (Value.Renamed s strings lineStrings u w) (lookup? s u as table index)
      (lookup? (s.restring strings lineStrings) u as' table index) := by
  have hother (htable : w.form.isString = false) (x : Option Value) :
      Option.Rel (Value.Renamed s strings lineStrings u w) x x := by
    cases x with
    | none => exact .none
    | some v => exact .some (.other v htable)
  cases table with
  | strings =>
    have hform : w.form.isString = true := by
      revert htable
      cases w.form <;> simp [Form.indexed?, Form.isString]
    unfold lookup?
    simp only [h _, Option.bind_eq_bind, DebugSections.restring_stringOffsets,
      DebugSections.restring_strings]
    cases baseOf? as' AttributeCode.stringOffsetsBase with
    | none => exact .none
    | some base =>
      rw [Option.bind_some, Option.bind_some]
      cases hoffset : numberAt? s.stringOffsets u.encoding.offsetSize
          (base + index * u.encoding.offsetSize) with
      | none => exact .none
      | some offset =>
        rw [Option.bind_some, Option.bind_some]
        apply rel_stringAt?
        rw [Int.toNat_natCast]
        exact .string offset (.inr ⟨index, base, offset, htable, hindex hform, hoffset, rfl⟩)
  | addresses | locationLists | rangeLists =>
    have hform : w.form.isString = false := by
      revert htable
      cases w.form <;> simp [Form.indexed?, Form.isString]
    unfold lookup?
    simp only [h _, DebugSections.restring_addresses, DebugSections.restring_locationLists,
      DebugSections.restring_rangeLists]
    exact hother hform _

theorem resolve?_renamed (h : Value.Renamed s strings lineStrings u w v v')
    (hbases : Option.Rel SameBases bases bases') :
    Option.Rel (Value.Renamed s strings lineStrings u w) (resolve? s u bases w.form v)
      (resolve? (s.restring strings lineStrings) u bases' w.form v') := by
  -- A number that no look-up in a table of strings is for.
  have hnumber (index : Int) (hstrp : w.form ≠ .strp) (hline : w.form ≠ .lineStrp)
      (hindex : w.form.isString = true → w.value = .number index)
      (hv : Value.Renamed s strings lineStrings u w (.number index) (.number index)) :
      Option.Rel (Value.Renamed s strings lineStrings u w) (resolve? s u bases w.form (.number index))
        (resolve? (s.restring strings lineStrings) u bases' w.form (.number index)) := by
    cases htable : w.form.indexed? with
    | none =>
      rw [resolve?_direct hstrp hline (.inl htable), resolve?_direct hstrp hline (.inl htable)]
      exact .some hv
    | some table =>
      cases hbases with
      | none =>
        rw [resolve?_direct hstrp hline (.inr rfl), resolve?_direct hstrp hline (.inr rfl)]
        exact .some hv
      | some hsame =>
        rw [resolve?_indexed htable, resolve?_indexed htable]
        exact lookup?_renamed hsame htable hindex
  have hkeep (hv : ∀ n, v ≠ .number n) (hv' : ∀ n, v' ≠ .number n) :
      Option.Rel (Value.Renamed s strings lineStrings u w) (resolve? s u bases w.form v)
        (resolve? (s.restring strings lineStrings) u bases' w.form v') := by
    rw [resolve?_of_ne_number hv, resolve?_of_ne_number hv']
    exact .some h
  cases h with
  | other _ hform =>
    cases v with
    | number index =>
      have hindex (h : w.form.isString = true) : w.value = .number index := by
        rw [hform] at h
        cases h
      apply hnumber index _ _ hindex (.other _ hform)
      · intro h
        rw [h] at hform
        cases hform
      · intro h
        rw [h] at hform
        cases hform
    | text bs => exact hkeep (by simp) (by simp)
    | block bs => exact hkeep (by simp) (by simp)
    | absent => exact hkeep (by simp) (by simp)
  | kept hdirect =>
    cases hvalue : w.value with
    | number index =>
      obtain ⟨hstrp, hline⟩ := hdirect index hvalue
      rw [hvalue] at hdirect
      exact hnumber index hstrp hline (fun _ => hvalue) (hvalue ▸ .kept (hvalue ▸ hdirect))
    | text bs => exact hvalue ▸ hkeep (by simp [hvalue]) (by simp [hvalue])
    | block bs => exact hvalue ▸ hkeep (by simp [hvalue]) (by simp [hvalue])
    | absent => exact hvalue ▸ hkeep (by simp [hvalue]) (by simp [hvalue])
  | string offset _ =>
    exact hkeep (Value.stringIn_ne_number _ _) (Value.stringIn_ne_number _ _)
  | lineString offset _ =>
    exact hkeep (Value.stringIn_ne_number _ _) (Value.stringIn_ne_number _ _)

/-- What is made of an attribute as it is written. -/
theorem resolve?_written (w : Attribute) (hbases : Option.Rel SameBases bases bases') :
    Option.Rel (Value.Renamed s strings lineStrings u w) (resolve? s u bases w.form w.value)
      (resolve? (s.restring strings lineStrings) u bases' w.form w.value) := by
  by_cases hdirect : ∀ n, w.value = .number n → w.form ≠ .strp ∧ w.form ≠ .lineStrp
  · exact resolve?_renamed (.kept hdirect) hbases
  · obtain ⟨code, form, value⟩ := w
    simp only [not_forall, not_and_or, not_not] at hdirect
    obtain ⟨n, rfl, rfl | rfl⟩ := hdirect
    · exact rel_stringAt? (.string n.toNat (.inl rfl))
    · exact rel_stringAt? (.lineString n.toNat (.inl rfl))

/-- Attributes are decoded alike, and are those that are written. -/
theorem attributes?_renamed (hbases : Option.Rel SameBases bases bases') (specs : List AttributeSpec)
    {ws as as' : Attributes} (h : Attributes.Renamed s strings lineStrings u ws as as') (bs : Bytes) :
    Option.Rel (fun r r' => r.2 = r'.2 ∧ ∃ ws', u.writtenFrom? specs ws bs = some ws' ∧
        Attributes.Renamed s strings lineStrings u ws' r.1 r'.1)
      (attributes? s u bases specs as bs)
      (attributes? (s.restring strings lineStrings) u bases' specs as' bs) := by
  induction specs generalizing ws as as' bs with
  | nil => exact .some ⟨rfl, ws, rfl, h⟩
  | cons spec specs ih =>
    rw [attributes?, attributes?, writtenFrom?]
    cases value? u spec bs with
    | none => exact .none
    | some r =>
      obtain ⟨form, value, rest⟩ := r
      have hvalue := @resolve?_written s strings lineStrings u _ _ ⟨spec.code, form, value⟩ hbases
      simp only [Option.bind_eq_bind, Option.bind_some]
      simp only at hvalue
      revert hvalue
      generalize resolve? s u bases form value = x
      generalize resolve? (s.restring strings lineStrings) u bases' form value = x'
      intro hvalue
      cases hvalue with
      | none => exact .none
      | @some v v' hv =>
        have hattribute : Attribute.Renamed s strings lineStrings u ⟨spec.code, form, value⟩
            ⟨spec.code, form, v⟩ ⟨spec.code, form, v'⟩ := ⟨rfl, rfl, rfl, rfl, hv⟩
        exact ih (h.set hattribute) rest

theorem die?_renamed (hbases : Option.Rel SameBases bases bases') (offset : Nat) :
    Option.Rel (Die.Renamed s strings lineStrings u) (die? s u bases offset)
      (die? (s.restring strings lineStrings) u bases' offset) := by
  unfold die?
  rw [DebugSections.restring_info]
  cases hcode : Leb128.unsigned? (s.info.drop offset) with
  | none => exact .none
  | some r =>
    obtain ⟨code, rest⟩ := r
    simp only [Option.bind_eq_bind, Option.bind_some]
    by_cases hnull : code = 0
    · rw [if_pos hnull, if_pos hnull]
      have hwritten : u.written? s offset = some [] := by
        unfold written?
        rw [hcode]
        exact if_pos hnull
      exact .some ⟨rfl, rfl, rfl, rfl, [], hwritten, .empty⟩
    · rw [if_neg hnull, if_neg hnull]
      cases htable : u.table with
      | none => exact .none
      | some table =>
        simp only [Option.bind_some]
        cases habbreviation : Abbreviation.find? table code with
        | none => exact .none
        | some abbreviation =>
          have hwritten : u.written? s offset =
              u.writtenFrom? abbreviation.attributes [] rest := by
            unfold written?
            simp only [hcode, Option.bind_eq_bind, Option.bind_some, if_neg hnull, htable,
              habbreviation]
          have hempty : Attributes.Renamed s strings lineStrings u [] [] [] := .empty
          have hattributes := attributes?_renamed hbases abbreviation.attributes hempty rest
          simp only [Option.bind_some]
          revert hattributes
          generalize attributes? s u bases abbreviation.attributes [] rest = x
          generalize attributes? (s.restring strings lineStrings) u bases' abbreviation.attributes []
            rest = x'
          intro hattributes
          cases hattributes with
          | none => exact .none
          | some h =>
            obtain ⟨hrest, ws, hws, has⟩ := h
            exact .some ⟨rfl, by rw [hrest], rfl, rfl, ws, hwritten.trans hws, has⟩

/-- The indices of the first entry are looked up alike. -/
theorem resolveAll_renamed {ws as as' : Attributes} (codes : List Nat)
    (h : Attributes.Renamed s strings lineStrings u ws as as') :
    (resolveAll s u codes as).2 = (resolveAll (s.restring strings lineStrings) u codes as').2 ∧
      Attributes.Renamed s strings lineStrings u ws (resolveAll s u codes as).1
        (resolveAll (s.restring strings lineStrings) u codes as').1 := by
  induction codes generalizing as as' with
  | nil => exact ⟨rfl, h⟩
  | cons code codes ih =>
    have hfound := h.found code
    rw [resolveAll, resolveAll]
    generalize hw : ws.get? code = w at hfound
    generalize as.get? code = a at hfound ⊢
    generalize as'.get? code = a' at hfound ⊢
    cases hfound with
    | none => exact ih h
    | @some w a a' ha =>
      have hcode : w.code = code := by simpa using List.find?_some hw
      simp only [ha.form, ha.form']
      split_ifs
      · exact ih h
      · have hvalue := resolve?_renamed ha.value (.some h.sameBases)
        revert hvalue
        generalize resolve? s u (some as) w.form a.value = x
        generalize resolve? (s.restring strings lineStrings) u (some as') w.form a'.value = x'
        intro hvalue
        cases hvalue with
        | none => exact ⟨rfl, h⟩
        | @some v v' hv =>
          have hset : Attribute.Renamed s strings lineStrings u w { a with form := w.form, value := v }
              { a' with form := w.form, value := v' } := ⟨ha.code, ha.code', rfl, rfl, hv⟩
          exact ih (h.replace (hcode ▸ hw) hset)

end CompileUnit

end

end ElfScope.Dwarf
