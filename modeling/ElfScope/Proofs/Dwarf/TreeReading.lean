import Mathlib
import ElfScope.Proofs.Dwarf.TreeEncoding
import ElfScope.Proofs.Record.Reading

/-! # Written entries read back

What is decoded where an entry was written is that entry, with its texts looked up and its references
as numbers, and it tells what the entry tells.
-/
namespace ElfScope.Dwarf
open Decoder

/-! ### Attributes -/

/-- The value of a datum as it is decoded. -/
def Datum.value (c : Context) : Datum → Value
  | .addr n | .data1 n | .data2 n | .data4 n | .data8 n | .udata n => .number n
  | .sdata n | .implicitConst n => .number n
  | .string t | .strp t => .text (Utf8.encode t)
  | .ref4 label => .number (c.labels label % Bytes.limit 4 : Nat)
  | .block1 bs | .exprloc bs => .block bs

def Context.attribute (c : Context) (a : Nat × Datum) : Attribute := ⟨a.1, a.2.form, a.2.value c⟩

/-- The entry at the head of a tree as it is decoded at an offset. -/
def Tree.die (c : Context) (t : Tree) (offset : Nat) : Die where
  offset := offset
  size := (t.head c).length
  tag := some t.entry.tag
  hasChildren := !t.children.isEmpty
  attributes := t.entry.attributes.map c.attribute

/-- Sections and a unit as they are written in a context. -/
structure Written (s : DebugSections) (u : CompileUnit) (c : Context) : Prop where
  strings : s.strings = Utf8.encodeTexts c.tables.texts
  fit : (Utf8.encodeTexts c.tables.texts).length < Bytes.limit 4
  table : u.table = some c.tables.abbreviations
  narrow : u.encoding.wide = false
  addressSize : u.encoding.addressSize = c.addressSize

/-- The entry is well formed, and the tables have what it needs. -/
structure Legible (c : Context) (t : Tree) : Prop where
  entry : t.entry.WellFormed c.addressSize
  shape : t.shape ∈ c.tables.shapes
  texts : ∀ x ∈ t.tableTexts, x ∈ c.tables.texts

namespace CompileUnit
variable {s : DebugSections} {u : CompileUnit} {c : Context}

theorem value?_of_reads {form : Form} (hconst : form ≠ .implicitConst) (hindirect : form ≠ .indirect)
    {bs : Bytes} {v : Value} (h : (form.decoder u.encoding).Reads bs v) (code : Nat) (constant : Int)
    (rest : Bytes) : u.value? ⟨code, some form, constant⟩ (bs ++ rest) = some (form, v, rest) := by
  have hread : (form.decoder u.encoding) (bs ++ rest) = .ok (v, rest) := h rest
  unfold value?
  simp only [Option.bind_eq_bind, Option.bind_some]
  rw [hread]
  rfl

/-- What is written for a datum is read, and is then resolved to its value. -/
theorem reads_datum (hs : Written s u c) {d : Datum} (hd : d.Fits c.addressSize)
    (htext : ∀ t, d.tableText? = some t → t ∈ c.tables.texts) (hconst : d.form ≠ .implicitConst) :
    ∃ raw, (d.form.decoder u.encoding).Reads (d.encode c) raw ∧
      ∀ bases, resolve? s u bases d.form raw = some (d.value c) := by
  have hnumber {width n : Nat} (hn : n < Bytes.limit width) :
      (Form.unsigned width).Reads (Bytes.ofNat .little width n) (.number n) :=
    (reads_number .little hn).map fun n => Value.number n
  cases d with
  | addr n =>
    refine ⟨.number n, ?_, fun bases => rfl⟩
    change (Form.unsigned u.encoding.addressSize).Reads _ _
    rw [hs.addressSize]
    exact hnumber hd
  | data1 n => exact ⟨.number n, hnumber hd, fun bases => rfl⟩
  | data2 n => exact ⟨.number n, hnumber hd, fun bases => rfl⟩
  | data4 n => exact ⟨.number n, hnumber hd, fun bases => rfl⟩
  | data8 n => exact ⟨.number n, hnumber hd, fun bases => rfl⟩
  | udata n =>
    exact ⟨.number n, (reads_unsigned n).map fun n => Value.number n, fun bases => rfl⟩
  | sdata n => exact ⟨.number n, (reads_signed n).map fun n => Value.number n, fun bases => rfl⟩
  | string t =>
    have hread := reads_nulTerminated (Utf8.zero_notMem_encode hd.2)
    exact ⟨.text (Utf8.encode t), hread.map fun bs => Value.text bs, fun bases => rfl⟩
  | strp t =>
    obtain ⟨hlt, hfound⟩ := Tables.stringAt?_textOffset (htext t rfl) hd.2 hs.fit
    refine ⟨.number (c.tables.textOffset t), ?_, fun bases => ?_⟩
    · change (Form.unsigned u.encoding.offsetSize).Reads _ _
      rw [Encoding.offsetSize, hs.narrow]
      exact hnumber hlt
    · change stringAt? s.strings _ = _
      rw [hs.strings, hfound]
      rfl
  | ref4 label =>
    have hread := reads_number_mod .little 4 (c.labels label)
    exact ⟨.number (c.labels label % Bytes.limit 4 : Nat), hread.map fun n => Value.number n,
      fun bases => rfl⟩
  | block1 bs =>
    refine ⟨.block bs, (reads_number .little hd).bind ?_, fun bases => rfl⟩
    exact (reads_take bs).map fun bs => Value.block bs
  | exprloc bs =>
    refine ⟨.block bs, (reads_unsigned bs.length).bind ?_, fun bases => rfl⟩
    exact (reads_take bs).map fun bs => Value.block bs
  | implicitConst n => exact absurd rfl hconst

theorem value?_encode (hs : Written s u c) {d : Datum} (hd : d.Fits c.addressSize)
    (htext : ∀ t, d.tableText? = some t → t ∈ c.tables.texts) (code : Nat) (rest : Bytes) :
    ∃ raw, u.value? ⟨code, some d.form, d.constant⟩ (d.encode c ++ rest) = some (d.form, raw, rest) ∧
      ∀ bases, resolve? s u bases d.form raw = some (d.value c) := by
  by_cases hconst : d.form = .implicitConst
  · cases d <;> cases hconst
    exact ⟨_, rfl, fun bases => rfl⟩
  · obtain ⟨raw, hread, hresolve⟩ := reads_datum hs hd htext hconst
    have hindirect : d.form ≠ .indirect := by
      cases d <;> simp [Datum.form]
    exact ⟨raw, value?_of_reads hconst hindirect hread code _ rest, hresolve⟩

theorem set_of_notMem {a : Attribute} {as : Attributes} (h : a.code ∉ as.map Attribute.code) :
    as.set a = as ++ [a] := by
  induction as with
  | nil => rfl
  | cons b as ih =>
    rw [List.map_cons, List.mem_cons, not_or] at h
    rw [Attributes.set, if_neg (Ne.symm h.1), ih h.2]
    rfl

/-- Distinct attributes are read in their order. -/
theorem attributes?_encode (hs : Written s u c) (bases : Option Attributes) (rest : Bytes) :
    ∀ (ds : List (Nat × Datum)) (as : Attributes), (∀ a ∈ ds, a.2.Fits c.addressSize ∧
      ∀ t, a.2.tableText? = some t → t ∈ c.tables.texts) →
      (as.map Attribute.code ++ ds.map Prod.fst).Nodup →
      attributes? s u bases (ds.map fun a => ⟨a.1, some a.2.form, a.2.constant⟩) as
        (ds.flatMap (fun a => a.2.encode c) ++ rest) = some (as ++ ds.map c.attribute, rest) := by
  intro ds
  induction ds with
  | nil =>
    intro as _ _
    rw [List.map_nil, List.flatMap_nil, List.map_nil, List.append_nil]
    rfl
  | cons a ds ih =>
    intro as hfits hdistinct
    obtain ⟨⟨hfit, htext⟩, hfits⟩ := List.forall_mem_cons.mp hfits
    obtain ⟨raw, hvalue, hresolve⟩ := value?_encode hs hfit htext a.1
      (ds.flatMap (fun a => a.2.encode c) ++ rest)
    have hnew : (c.attribute a).code ∉ as.map Attribute.code := by
      intro hmem
      exact (List.nodup_append.mp hdistinct).2.2 _ hmem a.1 (by simp) rfl
    have hnext : ((as ++ [c.attribute a]).map Attribute.code ++ ds.map Prod.fst).Nodup := by
      have hlist : (as ++ [c.attribute a]).map Attribute.code ++ ds.map Prod.fst =
          as.map Attribute.code ++ (a :: ds).map Prod.fst := by
        rw [List.map_append, List.append_assoc]
        rfl
      rw [hlist]
      exact hdistinct
    rw [List.map_cons, attributes?, List.flatMap_cons, List.append_assoc, hvalue]
    change Option.bind (resolve? s u bases a.2.form raw) _ = _
    rw [hresolve]
    change attributes? s u bases _ (as.set (c.attribute a)) _ = _
    rw [set_of_notMem hnew, ih _ hfits hnext, List.append_assoc]
    rfl

/-! ### Entries -/

theorem shape_attributes (t : Tree) :
    (Tables.abbreviationOf (t.shape, c.tables.code t.shape)).attributes =
      t.entry.attributes.map fun a => ⟨a.1, some a.2.form, a.2.constant⟩ := by
  change (t.entry.attributes.map _).map _ = _
  rw [List.map_map]
  refine List.map_congr_left ?_
  intro a _
  obtain ⟨code, d⟩ := a
  cases d <;> rfl

/-- The entry at the head of a tree is decoded where it was written, whatever the bases. -/
theorem die?_head (hs : Written s u c) {t : Tree} (ht : Legible c t) {offset : Nat}
    (h : s.info.Holds offset (t.head c)) (bases : Option Attributes) :
    die? s u bases offset = some (t.die c offset) := by
  have hne : t.head c ≠ [] := List.append_ne_nil_of_left_ne_nil (Tables.encode_ne_nil _) _
  have hle := h.le_length hne
  have hsize : s.info.length - (s.info.drop (offset + (t.head c).length)).length - offset =
      (t.head c).length := by
    rw [List.length_drop]
    omega
  have hattributes := attributes?_encode hs bases (s.info.drop (offset + (t.head c).length))
    t.entry.attributes [] (fun a ha => ⟨ht.entry.fits a ha, fun x hx => ht.texts x
      (List.mem_filterMap.mpr ⟨a, ha, hx⟩)⟩) ht.entry.distinct
  have hcode : c.tables.code t.shape ≠ 0 := Nat.succ_ne_zero _
  have hdrop := h.eq_append
  generalize s.info.drop (offset + (t.head c).length) = rest at hsize hattributes hdrop
  unfold die?
  rw [hdrop, Tree.head, List.append_assoc, Leb128.unsigned?_encode]
  simp only [Option.bind_eq_bind, Option.bind_some, if_neg hcode, hs.table]
  rw [Tables.find?_code ht.shape]
  simp only [Option.bind_some]
  rw [shape_attributes, hattributes]
  simp only [Option.bind_some]
  rw [hsize]
  rfl

/-- The null entry that ends a list of children. -/
def nullDie (offset : Nat) : Die where
  offset := offset
  size := 1
  tag := none
  hasChildren := false
  attributes := []

theorem die?_null {offset : Nat} (h : s.info.Holds offset [0]) (bases : Option Attributes) :
    die? s u bases offset = some (nullDie offset) := by
  have hle := h.le_length (by simp)
  rw [List.length_singleton] at hle
  have hsize : s.info.length - (s.info.drop (offset + 1)).length - offset = 1 := by
    rw [List.length_drop]
    omega
  have hdrop := h.eq_append
  rw [List.length_singleton] at hdrop
  generalize s.info.drop (offset + 1) = rest at hsize hdrop
  unfold die?
  rw [hdrop]
  change some (Die.mk offset (s.info.length - rest.length - offset) _ _ _) = _
  rw [hsize]
  rfl

end CompileUnit

/-! ### Records -/

namespace Tree
variable {c : Context} {t : Tree}

theorem attribute?_die (c : Context) (t : Tree) (offset code : Nat) :
    (t.die c offset).attribute? code = (t.entry.get? code).map fun d => c.attribute (code, d) := by
  change (t.entry.attributes.map c.attribute).find? (·.code = code) =
    (t.entry.attributes.lookup code).map _
  induction t.entry.attributes with
  | nil => rfl
  | cons a as ih =>
    rw [List.map_cons, List.find?_cons, List.lookup_cons]
    by_cases h : a.1 = code
    · have hcode : decide ((c.attribute a).code = code) = true := decide_eq_true h
      rw [hcode, ← h, beq_self_eq_true]
      rfl
    · have hcode : decide ((c.attribute a).code = code) = false := decide_eq_false h
      have hkey : (code == a.1) = false := by simpa using Ne.symm h
      rw [hcode, hkey]
      exact ih

theorem fits_of_get? (h : t.entry.WellFormed c.addressSize) {code : Nat} {d : Datum}
    (hd : t.entry.get? code = some d) : d.Fits c.addressSize := by
  obtain ⟨before, after, hsplit, -⟩ := List.lookup_eq_some_iff.mp hd
  exact h.fits (code, d) (by rw [hsplit]; simp)

theorem name_die (h : t.entry.WellFormed c.addressSize) (offset : Nat) (default : Text) :
    (t.die c offset).name default = t.entry.name default := by
  unfold Die.name Entry.name
  rw [attribute?_die]
  cases hd : t.entry.get? AttributeCode.name with
  | none => rfl
  | some d =>
    have hfits := fits_of_get? h hd
    cases d with
    | string x => exact Utf8.decodeLossy_encode hfits.1
    | strp x => exact Utf8.decodeLossy_encode hfits.1
    | _ => rfl

theorem lowPc_die (c : Context) (t : Tree) (offset : Nat) :
    (t.die c offset).lowPc = t.entry.lowPc := by
  unfold Die.lowPc Entry.lowPc
  rw [attribute?_die]
  cases t.entry.get? AttributeCode.lowPc with
  | none => rfl
  | some d => cases d <;> rfl

theorem unsignedConstant?_attribute (c : Context) (code : Nat) (d : Datum) :
    Die.unsignedConstant? (c.attribute (code, d)) = d.constant? := by
  cases d with
  | sdata n =>
    by_cases hn : 0 ≤ n <;>
      simp [Die.unsignedConstant?, Context.attribute, Datum.value, Datum.form, Form.isConstant,
        Datum.constant?, hn]
  | implicitConst n =>
    by_cases hn : 0 ≤ n <;>
      simp [Die.unsignedConstant?, Context.attribute, Datum.value, Datum.form, Form.isConstant,
        Datum.constant?, hn]
  | _ =>
    simp [Die.unsignedConstant?, Context.attribute, Datum.value, Datum.form, Form.isConstant,
      Datum.constant?]

theorem codeSize?_die (c : Context) (t : Tree) (offset : Nat) :
    (t.die c offset).codeSize? t.entry.lowPc = t.entry.codeSize? := by
  unfold Die.codeSize? Entry.codeSize?
  rw [attribute?_die]
  cases t.entry.get? AttributeCode.highPc with
  | none => rfl
  | some d =>
    cases d with
    | addr stop =>
      change some ((stop : Int) - t.entry.lowPc).toNat = some (stop - t.entry.lowPc)
      congr 1
      omega
    | _ => exact unsignedConstant?_attribute c AttributeCode.highPc _

theorem byteSize?_die (c : Context) (t : Tree) (offset : Nat) :
    (t.die c offset).byteSize? = t.entry.byteSize? := by
  unfold Die.byteSize? Entry.byteSize?
  rw [attribute?_die]
  cases t.entry.get? AttributeCode.byteSize with
  | none => rfl
  | some d => exact unsignedConstant?_attribute c AttributeCode.byteSize d

theorem memberOffset_die (c : Context) (t : Tree) (offset : Nat) :
    (t.die c offset).memberOffset = t.entry.memberOffset := by
  unfold Die.memberOffset Entry.memberOffset
  rw [attribute?_die]
  cases t.entry.get? AttributeCode.dataMemberLocation with
  | none => rfl
  | some d =>
    exact congrArg (·.getD 0) (unsignedConstant?_attribute c AttributeCode.dataMemberLocation d)

theorem location?_die (c : Context) (t : Tree) (offset : Nat) :
    (t.die c offset).location? =
      (t.entry.get? AttributeCode.location).bind Datum.fixedAddress? := by
  unfold Die.location?
  rw [attribute?_die]
  cases t.entry.get? AttributeCode.location with
  | none => rfl
  | some d =>
    have hexpression (operator : UInt8) (operand : Bytes) : (if true = true ∧ operator = 0x03 ∧
        operand.length = 8 then some (UInt64.ofNat (Bytes.littleValue operand)) else none) =
        if operator = 0x03 ∧ operand.length = 8 then
          some (UInt64.ofNat (Bytes.littleValue operand)) else none := by
      simp only [true_and]
    cases d with
    | block1 bs =>
      cases bs with
      | nil => rfl
      | cons operator operand => exact hexpression operator operand
    | exprloc bs =>
      cases bs with
      | nil => rfl
      | cons operator operand => exact hexpression operator operand
    | _ => rfl

theorem variableInfo_die (h : t.entry.WellFormed c.addressSize) (offset : Nat) (scope : Scope) :
    (t.die c offset).variableInfo scope = t.entry.variableInfo scope := by
  have htype : (t.die c offset).hasType = (t.entry.get? AttributeCode.type).isSome := by
    rw [Die.hasType, attribute?_die, Option.isSome_map]
  unfold Die.variableInfo Entry.variableInfo
  rw [name_die h, location?_die, htype]
  rfl

/-! Numbers that fit in 64 bits are accepted. -/

theorem constant?_lt {addressSize : Nat} {d : Datum} (h : d.Fits addressSize) {n : Nat}
    (hn : d.constant? = some n) : n < 2 ^ 64 := by
  have hlimit : Bytes.limit 8 = 2 ^ 64 := by decide
  have hword {m : Nat} (hm : m < Bytes.limit 8) : some m = some n → n < 2 ^ 64 := by
    rintro ⟨⟩
    omega
  have hinteger {m : Int} (hm : m < 2 ^ 64) :
      (if 0 ≤ m then some m.toNat else none) = some n → n < 2 ^ 64 := by
    intro he
    split_ifs at he
    cases he
    omega
  cases d with
  | data1 m => exact hword (lt_trans h (by decide)) hn
  | data2 m => exact hword (lt_trans h (by decide)) hn
  | data4 m => exact hword (lt_trans h (by decide)) hn
  | data8 m => exact hword h hn
  | udata m => exact hword h hn
  | sdata m => exact hinteger h.2 hn
  | implicitConst m => exact hinteger h.2 hn
  | _ => cases hn

theorem limit_le {addressSize : Nat} (h : addressSize = 4 ∨ addressSize = 8) :
    Bytes.limit addressSize ≤ 2 ^ 64 := by
  rcases h with rfl | rfl <;> decide

theorem address?_lt {addressSize : Nat} (ha : addressSize = 4 ∨ addressSize = 8) {d : Datum}
    (h : d.Fits addressSize) {n : Nat} (hn : d.address? = some n) : n < 2 ^ 64 := by
  cases d with
  | addr m =>
    cases hn
    exact lt_of_lt_of_le h (limit_le ha)
  | _ => cases hn

theorem constant?_bind_lt (h : t.entry.WellFormed c.addressSize) {code n : Nat}
    (hn : (t.entry.get? code).bind Datum.constant? = some n) : n < 2 ^ 64 := by
  obtain ⟨d, hd, hn⟩ := Option.bind_eq_some_iff.mp hn
  exact constant?_lt (fits_of_get? h hd) hn

theorem lowPc_lt (ha : c.addressSize = 4 ∨ c.addressSize = 8)
    (h : t.entry.WellFormed c.addressSize) : t.entry.lowPc < 2 ^ 64 := by
  unfold Entry.lowPc
  cases hn : (t.entry.get? AttributeCode.lowPc).bind Datum.address? with
  | none => decide
  | some n =>
    obtain ⟨d, hd, hn⟩ := Option.bind_eq_some_iff.mp hn
    exact address?_lt ha (fits_of_get? h hd) hn

theorem codeSize?_lt (ha : c.addressSize = 4 ∨ c.addressSize = 8)
    (h : t.entry.WellFormed c.addressSize) {n : Nat} (hn : t.entry.codeSize? = some n) :
    n < 2 ^ 64 := by
  unfold Entry.codeSize? at hn
  cases hd : t.entry.get? AttributeCode.highPc with
  | none =>
    rw [hd] at hn
    cases hn
  | some d =>
    rw [hd] at hn
    have hfits := fits_of_get? h hd
    cases d with
    | addr stop =>
      cases hn
      exact lt_of_le_of_lt (Nat.sub_le _ _) (lt_of_lt_of_le hfits (limit_le ha))
    | _ => exact constant?_lt hfits hn

theorem sizeWord_ok {size : Option Nat} (h : ∀ n, size = some n → n < 2 ^ 64) :
    Die.sizeWord size = .ok (size.map UInt64.ofNat) := by
  cases size with
  | none => rfl
  | some n =>
    rw [Die.sizeWord, Check.wordOf_natCast "size" (h n rfl)]
    rfl

theorem memberInfo_die (h : t.entry.WellFormed c.addressSize) (offset : Nat) :
    (t.die c offset).memberInfo = .ok t.entry.memberInfo := by
  have hlt : t.entry.memberOffset < 2 ^ 64 := by
    unfold Entry.memberOffset
    cases hn : (t.entry.get? AttributeCode.dataMemberLocation).bind Datum.constant? with
    | none => decide
    | some n => exact constant?_bind_lt h hn
  unfold Die.memberInfo
  rw [memberOffset_die, Check.wordOf_natCast "offset" hlt, name_die h]
  rfl

theorem functionInfo_die (ha : c.addressSize = 4 ∨ c.addressSize = 8)
    (h : t.entry.WellFormed c.addressSize) (offset : Nat) {children : List Entry}
    {parameters : List VariableInfo} (hp : parameters =
      (children.filter (·.tag = Tag.formalParameter)).map (·.variableInfo .parameter)) :
    (t.die c offset).functionInfo parameters = .ok (t.entry.functionInfo children) := by
  have hreference : (t.die c offset).hasUnitReference =
      decide ((t.entry.get? AttributeCode.type).map Datum.form = some .ref4) := by
    rw [Die.hasUnitReference, attribute?_die]
    cases t.entry.get? AttributeCode.type with
    | none => rfl
    | some d => cases d <;> rfl
  unfold Die.functionInfo
  rw [lowPc_die, Check.wordOf_natCast "address" (lowPc_lt ha h), codeSize?_die,
    sizeWord_ok fun n => codeSize?_lt ha h, name_die h, hreference, hp]
  simp only [decide_eq_true_eq]
  rfl

theorem typeInfo_die (h : t.entry.WellFormed c.addressSize) (offset : Nat) {children : List Entry}
    {kind : TypeKind} (hkind : (t.die c offset).typeKind = kind) {members : List MemberInfo}
    (hm : members = if kind = .enum then [] else
      (children.filter (·.tag = Tag.member)).map Entry.memberInfo) :
    (t.die c offset).typeInfo members = .ok (t.entry.typeInfo kind children) := by
  have hsize : Die.sizeWord t.entry.byteSize? = .ok (t.entry.byteSize?.map UInt64.ofNat) :=
    sizeWord_ok fun n => constant?_bind_lt h
  unfold Die.typeInfo
  rw [byteSize?_die, hsize, name_die h, hkind, hm]
  rfl

end Tree

end ElfScope.Dwarf
