import Mathlib
import ElfScope.Proofs.Bytes.Reads
import ElfScope.Proofs.Dwarf.Tree

/-! # Writing trees of entries

Units are written one after the other. They share one table of abbreviations and one of strings, each
item written once and in the order of its first use. An entry is followed by its children and a null
entry if it has children, and by nothing else.
-/
namespace ElfScope.Dwarf

/-! ### Shared tables -/

/-- What the abbreviation of an entry says. -/
structure Shape where
  tag : Nat
  hasChildren : Bool
  attributes : List (Nat × Form × Int)
deriving DecidableEq

/-- The constant that stands in the abbreviation and not in the entry. -/
def Datum.constant : Datum → Int
  | .implicitConst n => n
  | _ => 0

/-- The text that stands in the table of strings. -/
def Datum.tableText? : Datum → Option Text
  | .strp t => some t
  | _ => none

def Tree.shape (t : Tree) : Shape where
  tag := t.entry.tag
  hasChildren := !t.children.isEmpty
  attributes := t.entry.attributes.map fun a => (a.1, a.2.form, a.2.constant)

def Tree.tableTexts (t : Tree) : List Text := t.entry.attributes.filterMap (·.2.tableText?)

structure Tables where
  shapes : List Shape
  texts : List Text

namespace Tables

def ofForest (ts : Forest) : Tables where
  shapes := ((Forest.nodes ts).map Tree.shape).eraseDups
  texts := ((Forest.nodes ts).flatMap Tree.tableTexts).eraseDups

variable (tables : Tables)

def code (s : Shape) : Nat := tables.shapes.idxOf s + 1

def encodeSpec (spec : Nat × Form × Int) : Bytes :=
  Leb128.encode spec.1 ++ (Leb128.encode spec.2.1.code ++
    if spec.2.1 = .implicitConst then Leb128.encodeSigned spec.2.2 else [])

def encodeShape (s : Shape × Nat) : Bytes :=
  Leb128.encode s.2 ++ (Leb128.encode s.1.tag ++
    (Bytes.ofNat .little 1 (if s.1.hasChildren then 1 else 0) ++
      (s.1.attributes.flatMap encodeSpec ++ (Leb128.encode 0 ++ Leb128.encode 0))))

def encodeShapes : Bytes := (tables.shapes.zipIdx 1).flatMap encodeShape ++ Leb128.encode 0

/-- Where a text starts in the table of strings. -/
def textOffset (t : Text) : Nat := (Utf8.encodeTexts (tables.texts.take (tables.texts.idxOf t))).length

end Tables

/-! ### Units -/

/-- What the bytes of an entry depend on: the shared tables, the width of addresses and the offsets of
the labels within the unit. -/
structure Context where
  tables : Tables
  addressSize : Nat
  labels : Text → Nat

def Datum.encode (c : Context) : Datum → Bytes
  | .addr n => Bytes.ofNat .little c.addressSize n
  | .data1 n => Bytes.ofNat .little 1 n
  | .data2 n => Bytes.ofNat .little 2 n
  | .data4 n => Bytes.ofNat .little 4 n
  | .data8 n => Bytes.ofNat .little 8 n
  | .udata n => Leb128.encode n
  | .sdata n => Leb128.encodeSigned n
  | .string t => Utf8.encode t ++ [0]
  | .strp t => Bytes.ofNat .little 4 (c.tables.textOffset t)
  | .ref4 label => Bytes.ofNat .little 4 (c.labels label)
  | .block1 bs => Bytes.ofNat .little 1 bs.length ++ bs
  | .exprloc bs => Leb128.encode bs.length ++ bs
  | .implicitConst _ => []

/-- The bytes of an entry before its children. -/
def Tree.head (c : Context) (t : Tree) : Bytes :=
  Leb128.encode (c.tables.code t.shape) ++ t.entry.attributes.flatMap fun a => a.2.encode c

mutual

def Tree.encode (c : Context) : Tree → Bytes
  | .node e cs =>
    Tree.head c (.node e cs) ++ if cs.isEmpty then [] else Forest.encode c cs ++ [0]

def Forest.encode (c : Context) : Forest → Bytes
  | [] => []
  | t :: ts => t.encode c ++ Forest.encode c ts

end

mutual

/-- The labels of a tree that is written at an offset, in pre-order. -/
def Tree.labels (c : Context) (offset : Nat) : Tree → List (Text × Nat)
  | .node e cs =>
    e.label.toList.map (fun l => (l, offset)) ++
      Forest.labels c (offset + (Tree.head c (.node e cs)).length) cs

def Forest.labels (c : Context) (offset : Nat) : Forest → List (Text × Nat)
  | [] => []
  | t :: ts => t.labels c offset ++ Forest.labels c (offset + (t.encode c).length) ts

end

namespace UnitTree
variable (tables : Tables) (u : UnitTree)

def headerSize : Nat := if 5 ≤ u.version then 12 else 11

/-- A label stands for the offset of its entry, the last one if there are several, and for zero if
there is none. References have a fixed size, so the offsets do not depend on them. -/
def context : Context :=
  let blank : Context := ⟨tables, u.addressSize, fun _ => 0⟩
  { blank with labels := fun l => ((u.top.labels blank u.headerSize).reverse.lookup l).getD 0 }

def body : Bytes := u.top.encode (u.context tables)

/-- The number of bytes after the length itself. -/
def length : Nat := u.headerSize - 4 + (u.body tables).length

def header : Bytes :=
  Bytes.ofNat .little 4 (u.length tables) ++ (Bytes.ofNat .little 2 u.version ++
    if 5 ≤ u.version then
      Bytes.ofNat .little 1 1 ++ (Bytes.ofNat .little 1 u.addressSize ++ Bytes.ofNat .little 4 0)
    else Bytes.ofNat .little 4 0 ++ Bytes.ofNat .little 1 u.addressSize)

def encode : Bytes := u.header tables ++ u.body tables

structure WellFormed (u : UnitTree) : Prop where
  version : 2 ≤ u.version ∧ u.version ≤ 5
  addressSize : u.addressSize = 4 ∨ u.addressSize = 8
  entries : ∀ t ∈ u.top.nodes, t.entry.WellFormed u.addressSize

instance (u : UnitTree) : Decidable u.WellFormed :=
  decidable_of_iff ((2 ≤ u.version ∧ u.version ≤ 5) ∧ (u.addressSize = 4 ∨ u.addressSize = 8) ∧
      ∀ t ∈ u.top.nodes, t.entry.WellFormed u.addressSize)
    ⟨fun h => ⟨h.1, h.2.1, h.2.2⟩, fun h => ⟨h.version, h.addressSize, h.entries⟩⟩

/-- The tables of all units. -/
def tablesOf (units : List UnitTree) : Tables := .ofForest (units.map top)

/-- Offsets within the sections fit in the 32-bit format. -/
structure Fit (units : List UnitTree) : Prop where
  lengths : ∀ u ∈ units, u.length (tablesOf units) < 0xffffff00
  texts : (Utf8.encodeTexts (tablesOf units).texts).length < Bytes.limit 4

/-- The debug sections of some units. There is no table of strings without strings. -/
def sections (units : List UnitTree) : List (Text × Bytes) :=
  let tables := tablesOf units
  let texts := Utf8.encodeTexts tables.texts
  (".debug_info", units.flatMap (·.encode tables)) :: (".debug_abbrev", tables.encodeShapes) ::
    if texts.isEmpty then [] else [(".debug_str", texts)]

end UnitTree

/-! ### Tables read back -/

namespace Tables
open Decoder

/-- The specification that is read for an attribute of a shape. -/
def specOf (spec : Nat × Form × Int) : AttributeSpec :=
  ⟨spec.1, some spec.2.1, if spec.2.1 = .implicitConst then spec.2.2 else 0⟩

def abbreviationOf (s : Shape × Nat) : Abbreviation where
  code := s.2
  tag := s.1.tag
  hasChildren := s.1.hasChildren
  attributes := s.1.attributes.map specOf

theorem encode_ne_nil (n : Nat) : Leb128.encode n ≠ [] := by
  rw [Leb128.encode]
  split_ifs <;> simp

theorem reads_spec {spec : Nat × Form × Int} (h : spec.1 ≠ 0) :
    Reads AttributeSpec.decoder (encodeSpec spec) (some (specOf spec)) := by
  obtain ⟨code, form, constant⟩ := spec
  refine (reads_unsigned code).bind ((reads_unsigned form.code).bind ?_)
  simp only [Form.ofCode?_code, Option.some.injEq]
  have hcode : ¬(code = 0 ∧ form.code = 0) := fun hz => h hz.1
  by_cases hform : form = .implicitConst
  · rw [if_pos hform, if_pos hform]
    have hread := (reads_signed constant).map fun n =>
      if code = 0 ∧ form.code = 0 then none else some (AttributeSpec.mk code (some form) n)
    rw [if_neg hcode] at hread
    rw [specOf, if_pos hform]
    exact hread
  · rw [if_neg hform, if_neg hform, pure_bind, if_neg hcode, specOf, if_neg hform]
    exact reads_pure _

theorem reads_specs_end :
    Reads AttributeSpec.decoder (Leb128.encode 0 ++ Leb128.encode 0) none := by
  refine (reads_unsigned 0).bind ((reads_unsigned 0).last ?_)
  exact fun rest => rfl

theorem reads_shape {s : Shape × Nat} (hs : s.2 ≠ 0) (hcodes : ∀ a ∈ s.1.attributes, a.1 ≠ 0) :
    Reads Abbreviation.decoder (encodeShape s) (some (abbreviationOf s)) := by
  unfold encodeShape
  refine (reads_unsigned s.2).bind ?_
  rw [if_neg hs]
  refine (reads_unsigned s.1.tag).bind ?_
  have hchildren : Reads (number .little 1)
      (Bytes.ofNat .little 1 (if s.1.hasChildren then 1 else 0))
      (if s.1.hasChildren then 1 else 0) := by
    refine reads_number .little ?_
    split_ifs <;> decide
  apply hchildren.bind
  have hlow : ¬1 < if s.1.hasChildren then 1 else 0 := by
    split_ifs <;> omega
  rw [if_neg hlow]
  have hitem (a : Nat × Form × Int) (ha : a ∈ s.1.attributes) :
      Reads AttributeSpec.decoder (encodeSpec a) (some (specOf a)) ∧ encodeSpec a ≠ [] :=
    ⟨reads_spec (hcodes a ha), List.append_ne_nil_of_left_ne_nil (encode_ne_nil a.1) _⟩
  have hattributes := reads_repeatUntilNone reads_specs_end
    (List.append_ne_nil_of_left_ne_nil (encode_ne_nil 0) _) hitem
  have hflag : decide ((if s.1.hasChildren then 1 else 0) = 1) = s.1.hasChildren := by
    cases s.1.hasChildren <;> rfl
  rw [hflag]
  exact hattributes.map fun specs => some (Abbreviation.mk s.2 s.1.tag s.1.hasChildren specs)

/-- The table of abbreviations of some shapes. -/
def abbreviations (tables : Tables) : Abbreviation.Table :=
  (tables.shapes.zipIdx 1).map abbreviationOf

variable {tables : Tables}

theorem table?_encodeShapes (h : ∀ s ∈ tables.shapes, ∀ a ∈ s.attributes, a.1 ≠ 0) :
    Abbreviation.table? tables.encodeShapes 0 = some tables.abbreviations := by
  have hend : Reads Abbreviation.decoder (Leb128.encode 0) none :=
    (reads_unsigned 0).last (reads_pure none)
  have hitem (s : Shape × Nat) (hs : s ∈ tables.shapes.zipIdx 1) :
      Reads Abbreviation.decoder (encodeShape s) (some (abbreviationOf s)) ∧ encodeShape s ≠ [] := by
    obtain ⟨hle, -, hshape⟩ := List.mem_zipIdx hs
    refine ⟨reads_shape (by omega) (h s.1 ?_), List.append_ne_nil_of_left_ne_nil (encode_ne_nil _) _⟩
    rw [hshape]
    exact List.getElem_mem _
  have hread := reads_repeatUntilNone hend (encode_ne_nil 0) hitem
  have hheld : Bytes.Holds tables.encodeShapes 0 tables.encodeShapes := List.prefix_refl _
  have hpos : ¬tables.encodeShapes.length ≤ 0 := by
    have hne := List.append_ne_nil_of_right_ne_nil ((tables.shapes.zipIdx 1).flatMap encodeShape)
      (encode_ne_nil 0)
    have := List.length_pos_iff.mpr hne
    exact not_le.mpr this
  unfold Abbreviation.table?
  rw [if_neg hpos, hread.valueAt hheld]
  rfl

/-- The abbreviation of a shape is found by its code. -/
theorem find?_code {s : Shape} (h : s ∈ tables.shapes) :
    Abbreviation.find? tables.abbreviations (tables.code s) =
      some (abbreviationOf (s, tables.code s)) := by
  have hmem : abbreviationOf (s, tables.code s) ∈ tables.abbreviations := by
    refine List.mem_map_of_mem (List.mk_mem_zipIdx_iff_le_and_getElem?_sub.mpr ⟨?_, ?_⟩)
    · exact Nat.le_add_left 1 _
    · rw [code, Nat.add_sub_cancel, List.getElem?_eq_getElem (List.idxOf_lt_length_of_mem h),
        List.getElem_idxOf]
  have hcodes : (tables.abbreviations.map Abbreviation.code).Nodup := by
    have hmap : tables.abbreviations.map Abbreviation.code =
        (tables.shapes.zipIdx 1).map Prod.snd := by
      rw [abbreviations, List.map_map]
      rfl
    rw [hmap, List.zipIdx_map_snd]
    exact List.nodup_range'
  unfold Abbreviation.find?
  cases hf : tables.abbreviations.reverse.find? (·.code = tables.code s) with
  | none =>
    have hnone := List.find?_eq_none.mp hf _ (List.mem_reverse.mpr hmem)
    simp [abbreviationOf] at hnone
  | some a =>
    have ha := List.mem_reverse.mp (List.mem_of_find?_eq_some hf)
    have hcode : a.code = tables.code s := by simpa using List.find?_some hf
    rw [List.inj_on_of_nodup_map hcodes ha hmem hcode]

/-- A text of the table is found at its offset. -/
theorem stringAt?_textOffset {t : Text} (ht : t ∈ tables.texts) (hnul : ∀ c ∈ t, c.value ≠ 0)
    (hfit : (Utf8.encodeTexts tables.texts).length < Bytes.limit 4) :
    tables.textOffset t < Bytes.limit 4 ∧
      stringAt? (Utf8.encodeTexts tables.texts) (tables.textOffset t) =
        some (.text (Utf8.encode t)) := by
  have hlt := List.idxOf_lt_length_of_mem ht
  have hsplit : tables.texts = tables.texts.take (tables.texts.idxOf t) ++
      t :: tables.texts.drop (tables.texts.idxOf t + 1) := by
    conv_lhs => rw [← List.take_append_drop (tables.texts.idxOf t) tables.texts]
    rw [List.drop_eq_getElem_cons hlt, List.getElem_idxOf]
  have hbytes : Utf8.encodeTexts tables.texts =
      Utf8.encodeTexts (tables.texts.take (tables.texts.idxOf t)) ++
        (Utf8.encode t ++ 0 :: Utf8.encodeTexts (tables.texts.drop (tables.texts.idxOf t + 1))) := by
    conv_lhs => rw [hsplit]
    simp [Utf8.encodeTexts]
  have hoffset : tables.textOffset t < Bytes.limit 4 := by
    refine lt_of_le_of_lt ?_ hfit
    rw [hbytes, List.length_append]
    exact Nat.le_add_right _ _
  have hreach : reachable (tables.textOffset t) = true := by
    have hlimit : Bytes.limit 4 ≤ Bytes.positionLimit := by decide
    simp only [reachable, Bool.and_eq_true, decide_eq_true_eq]
    omega
  refine ⟨hoffset, ?_⟩
  unfold stringAt?
  rw [if_pos hreach, hbytes, Int.toNat_natCast]
  rw [textOffset, List.drop_left, Bytes.beforeNul?_append _ _ (Utf8.zero_notMem_encode hnul)]

end Tables

end ElfScope.Dwarf
