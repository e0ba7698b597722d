import Mathlib
import ElfScope.Proofs.Dwarf.TreeWalk

/-! # Walking written units

The units that are found are those that were written, and each adds the records of its tree. So a walk
over the sections of some units tells what the units tell.
-/
namespace ElfScope.Dwarf
open Decoder

namespace UnitTree
variable {tables : Tables} {u : UnitTree}

theorem length_header (tables : Tables) (u : UnitTree) : (u.header tables).length = u.headerSize := by
  unfold header headerSize
  split_ifs <;> simp

theorem reads_header (hversion : 2 ≤ u.version ∧ u.version ≤ 5)
    (haddress : u.addressSize = 4 ∨ u.addressSize = 8) (hlength : u.length tables < 0xffffff00) :
    Reads UnitHeader.decoder (u.header tables)
      ⟨u.length tables, ⟨u.version, false, u.addressSize⟩, 0⟩ := by
  have hfits : u.length tables < Bytes.limit 4 := lt_trans hlength (by decide)
  have hversionFits : u.version < Bytes.limit 2 := lt_of_le_of_lt hversion.2 (by decide)
  have haddressFits : u.addressSize < Bytes.limit 1 := by
    rcases haddress with h | h <;> rw [h] <;> decide
  have hnarrow : decide (u.length tables = 0xffffffff) = false := decide_eq_false (by omega)
  unfold UnitHeader.decoder header
  refine (reads_number .little hfits).bind ?_
  rw [if_neg (by omega)]
  simp only [hnarrow]
  rw [if_neg (by simp), pure_bind]
  refine (reads_number .little hversionFits).bind ?_
  have hsupported : ¬(u.version < 2 ∨ 5 < u.version) := by omega
  have hsize : ¬(u.addressSize ≠ 4 ∧ u.addressSize ≠ 8) := by omega
  have hzero : (number .little 4).Reads (Bytes.ofNat .little 4 0) 0 := reads_number .little (by decide)
  have haddressRead := reads_number .little haddressFits
  rw [if_neg hsupported]
  by_cases hold : u.version < 5
  · rw [if_pos hold, if_neg (show ¬5 ≤ u.version by omega)]
    refine hzero.bind (haddressRead.last ?_)
    rw [pure_bind]
    simp only [if_neg hsize]
    exact reads_pure _
  · rw [if_neg hold, if_pos (show 5 ≤ u.version by omega)]
    have hkind : (number .little 1).Reads (Bytes.ofNat .little 1 1) 1 :=
      reads_number .little (by decide)
    refine hkind.bind (haddressRead.bind (hzero.last ?_))
    simp only [UnitHeader.kindFields, pure_bind, if_neg hsize]
    exact reads_pure _

/-- A unit as it is decoded at an offset. -/
def decoded (tables : Tables) (u : UnitTree) (offset : Nat) : CompileUnit where
  offset := offset
  header := ⟨u.length tables, ⟨u.version, false, u.addressSize⟩, 0⟩
  start := offset + u.headerSize
  table := some tables.abbreviations

/-- Units as they are decoded from an offset on. -/
def decodedFrom (tables : Tables) : Nat → List UnitTree → List CompileUnit
  | _, [] => []
  | offset, u :: us =>
    u.decoded tables offset :: decodedFrom tables (offset + (u.encode tables).length) us

theorem length_encode (tables : Tables) (u : UnitTree) :
    (u.encode tables).length = u.length tables + 4 := by
  have hsize : 4 ≤ u.headerSize := by
    unfold headerSize
    split_ifs <;> omega
  rw [encode, List.length_append, length_header, length]
  omega

/-- The sections are those of units in a context of shared tables. -/
structure Shared (s : DebugSections) (tables : Tables) : Prop where
  abbreviations : Abbreviation.table? s.abbreviations 0 = some tables.abbreviations
  strings : s.strings = Utf8.encodeTexts tables.texts
  fit : (Utf8.encodeTexts tables.texts).length < Bytes.limit 4

variable {s : DebugSections}

theorem at?_encode (hs : Shared s tables) (hu : u.WellFormed) (hlength : u.length tables < 0xffffff00)
    {offset : Nat} (h : s.info.Holds offset (u.encode tables)) :
    CompileUnit.at? s offset = some (u.decoded tables offset) := by
  have hheader : s.info.Holds offset (u.header tables) := h.left
  have hne : u.header tables ≠ [] := by
    apply List.ne_nil_of_length_pos
    rw [length_header, headerSize]
    split_ifs <;> omega
  have hle := hheader.le_length hne
  have hstart : s.info.length - (s.info.drop (offset + (u.header tables).length)).length =
      offset + u.headerSize := by
    rw [List.length_drop, length_header] at *
    omega
  have hread := (reads_header hu.version hu.addressSize hlength).runAt hheader
  unfold CompileUnit.at?
  rw [hread]
  simp only [hstart, hs.abbreviations]
  rfl

theorem listFrom_decodedFrom (hs : Shared s tables) {us : List UnitTree}
    (hus : ∀ u ∈ us, u.WellFormed ∧ u.length tables < 0xffffff00) {offset fuel : Nat}
    (h : s.info.drop offset = us.flatMap (·.encode tables)) (hfuel : us.length < fuel) :
    CompileUnit.listFrom s fuel offset = (decodedFrom tables offset us, false) := by
  induction us generalizing offset fuel with
  | nil =>
    obtain ⟨fuel, rfl⟩ : ∃ k, fuel = k + 1 := ⟨fuel - 1, by omega⟩
    rw [CompileUnit.listFrom, if_pos (List.drop_eq_nil_iff.mp h)]
    rfl
  | cons u us ih =>
    obtain ⟨⟨hu, hlength⟩, hus⟩ := List.forall_mem_cons.mp hus
    rw [List.length_cons] at hfuel
    obtain ⟨fuel, rfl⟩ : ∃ k, fuel = k + 1 := ⟨fuel - 1, by omega⟩
    obtain ⟨hheld, hnext⟩ := Bytes.holds_of_drop h
    have hle := hheld.le_length (List.ne_nil_of_length_pos (by rw [length_encode]; omega))
    have hstep : (u.decoded tables offset).next = offset + (u.encode tables).length := by
      rw [length_encode, ← Nat.add_assoc]
      rfl
    rw [length_encode] at hle
    rw [CompileUnit.listFrom, if_neg (by omega), at?_encode hs hu hlength hheld]
    simp only [hstep]
    rw [ih hus hnext (by omega)]
    rfl

/-! ### One unit -/

theorem resolveAll_of_indexed?_none {cu : CompileUnit} {as : Attributes}
    (h : ∀ a ∈ as, a.form.indexed? = none) (codes : List Nat) :
    CompileUnit.resolveAll s cu codes as = (as, true) := by
  induction codes with
  | nil => rfl
  | cons code codes ih =>
    rw [CompileUnit.resolveAll]
    cases ha : as.get? code with
    | none => exact ih
    | some a =>
      have hnone := h a (List.mem_of_find?_eq_some ha)
      simp only [hnone]
      exact ih

theorem written_decoded (hs : Shared s tables) (offset : Nat) :
    Written s (u.decoded tables offset) (u.context tables) :=
  ⟨hs.strings, hs.fit, rfl, rfl, rfl⟩

theorem top?_decoded (hs : Shared s tables) (ht : Legible (u.context tables) u.top) {offset : Nat}
    (h : s.info.Holds (offset + u.headerSize) (u.body tables)) :
    (u.decoded tables offset).top? s =
      some (u.top.die (u.context tables) (offset + u.headerSize)) := by
  have hhead : s.info.Holds (offset + u.headerSize) (u.top.head (u.context tables)) := by
    unfold body at h
    cases htop : u.top with
    | node e cs =>
      rw [htop, CompileUnit.encode_node] at h
      exact h.left
  have hdie : (u.decoded tables offset).die? s none (offset + u.headerSize) = _ :=
    CompileUnit.die?_head (written_decoded hs offset) ht hhead none
  have hforms : ∀ a ∈ (u.top.die (u.context tables) (offset + u.headerSize)).attributes,
      a.form.indexed? = none := by
    intro a ha
    obtain ⟨⟨code, d⟩, -, rfl⟩ := List.mem_map.mp ha
    cases d <;> rfl
  change Option.bind ((u.decoded tables offset).die? s none (offset + u.headerSize)) _ = _
  rw [hdie, Option.bind_some, resolveAll_of_indexed?_none hforms]
  rfl

/-- A unit adds the records of its tree. -/
theorem gives_addedByUnit (hs : Shared s tables) (hu : u.WellFormed)
    (hlegible : ∀ t ∈ u.top.nodes, Legible (u.context tables) t) {offset : Nat}
    (h : s.info.Holds offset (u.encode tables)) :
    ((u.decoded tables offset).addedByUnit s).Gives (u.top.symbols false) := by
  have hbody : s.info.Holds (offset + u.headerSize) (u.body tables) := by
    rw [← length_header tables u]
    exact h.right
  have hself : u.top ∈ u.top.nodes := by
    rcases u.top with ⟨e, cs⟩
    exact List.mem_cons_self
  unfold CompileUnit.addedByUnit
  rw [top?_decoded hs (hlegible u.top hself) hbody]
  refine Plain.gives_map.mpr ⟨(u.top.symbols false, false), ?_, rfl⟩
  have hwritten := written_decoded (u := u) hs offset
  have haddress : (u.context tables).addressSize = 4 ∨ (u.context tables).addressSize = 8 :=
    hu.addressSize
  rcases htop : u.top with ⟨e, cs⟩
  rw [htop] at hlegible
  refine CompileUnit.gives_addedFromTop hwritten haddress hlegible ?_
  rw [← htop]
  exact hbody

/-! ### All units -/

theorem mem_nodes {ts : Forest} {t r : Tree} (hr : r ∈ ts) (ht : t ∈ r.nodes) :
    t ∈ Forest.nodes ts := by
  induction ts with
  | nil => cases hr
  | cons a ts ih =>
    apply List.mem_append.mpr
    rcases List.mem_cons.mp hr with rfl | hr
    · exact .inl ht
    · exact .inr (ih hr)

theorem of_mem_nodes {ts : Forest} {t : Tree} (ht : t ∈ Forest.nodes ts) :
    ∃ r ∈ ts, t ∈ r.nodes := by
  induction ts with
  | nil => cases ht
  | cons a ts ih =>
    rcases List.mem_append.mp ht with ht | ht
    · exact ⟨a, List.mem_cons_self, ht⟩
    · obtain ⟨r, hr, ht⟩ := ih ht
      exact ⟨r, List.mem_cons_of_mem a hr, ht⟩

variable {units : List UnitTree}

/-- The tables of some units have what the entries of each need. -/
theorem legible_tablesOf (hu : u ∈ units) (hwf : u.WellFormed) {t : Tree} (ht : t ∈ u.top.nodes) :
    Legible (u.context (tablesOf units)) t := by
  have hmem : t ∈ Forest.nodes (units.map top) := mem_nodes (List.mem_map_of_mem hu) ht
  refine ⟨hwf.entries t ht, ?_, fun x hx => ?_⟩
  · exact List.mem_eraseDups.mpr (List.mem_map_of_mem hmem)
  · exact List.mem_eraseDups.mpr (List.mem_flatMap_of_mem hmem hx)

theorem codes_tablesOf (hwf : ∀ u ∈ units, u.WellFormed) {p : Shape}
    (hp : p ∈ (tablesOf units).shapes) {a : Nat × Form × Int} (ha : a ∈ p.attributes) :
    a.1 ≠ 0 := by
  obtain ⟨t, ht, rfl⟩ := List.mem_map.mp (List.mem_eraseDups.mp hp)
  obtain ⟨r, hr, ht⟩ := of_mem_nodes ht
  obtain ⟨u, hu, rfl⟩ := List.mem_map.mp hr
  obtain ⟨b, hb, rfl⟩ := List.mem_map.mp ha
  exact (((hwf u hu).entries t ht).codes b hb).1

theorem shared_tablesOf (hwf : ∀ u ∈ units, u.WellFormed) (hfit : Fit units)
    (habbreviations : s.abbreviations = (tablesOf units).encodeShapes)
    (hstrings : s.strings = Utf8.encodeTexts (tablesOf units).texts) :
    Shared s (tablesOf units) := by
  refine ⟨?_, hstrings, hfit.texts⟩
  rw [habbreviations]
  exact Tables.table?_encodeShapes fun p hp a ha => codes_tablesOf hwf hp ha

/-- Units that stand one after the other each add the records of their trees. -/
theorem gives_decodedFrom (hs : Shared s tables) {us : List UnitTree}
    (hus : ∀ u ∈ us, u.WellFormed ∧ ∀ t ∈ u.top.nodes, Legible (u.context tables) t) {offset : Nat}
    (h : s.info.drop offset = us.flatMap (·.encode tables)) :
    List.Forall₂ (fun u a => (u.addedByUnit s).Gives a) (decodedFrom tables offset us)
      (us.map (·.top.symbols false)) := by
  induction us generalizing offset with
  | nil => exact .nil
  | cons u us ih =>
    obtain ⟨⟨hu, hlegible⟩, hus⟩ := List.forall_mem_cons.mp hus
    obtain ⟨hheld, hnext⟩ := Bytes.holds_of_drop h
    exact .cons (gives_addedByUnit hs hu hlegible hheld) (ih hus hnext)

theorem length_le_info (us : List UnitTree) :
    us.length ≤ (us.flatMap (·.encode tables)).length :=
  length_le_flatMap fun u _ => List.ne_nil_of_length_pos (by rw [length_encode]; omega)

end UnitTree

/-- A walk finds what the units add when each adds something. -/
theorem Walk.outcome_run_of_gives {s : DebugSections} {added : List Symbols}
    (h : List.Forall₂ (fun u a => (u.addedByUnit s).Gives a) (CompileUnit.units s) added)
    {desk : Desk} (hm : desk.memories = []) :
    (outcome (run (some s)) desk).1 = .ok (Symbols.concat added) := by
  have hgives : ∀ u ∈ CompileUnit.units s, ∃ a, (u.addedByUnit s).Gives a := by
    generalize CompileUnit.units s = us at h
    induction h with
    | nil => simp
    | cons ha _ ih => exact List.forall_mem_cons.mpr ⟨⟨_, ha⟩, ih⟩
  rcases outcome_run s hm with ⟨u, hu, hnone, -⟩ | ⟨⟨u, hu, hendless⟩, -⟩ | ⟨added', hadded, hrun⟩
  · obtain ⟨a, ha⟩ := hgives u hu
    rw [Plain.Gives, hnone] at ha
    cases ha
  · obtain ⟨a, ha⟩ := hgives u hu
    rw [Plain.Gives, hendless] at ha
    cases ha
  · have hsame : added' = added := by
      refine List.right_unique_forall₂' (fun u a b ha hb => ?_) hadded h
      rw [Plain.Gives, ha] at hb
      cases hb
      rfl
    rw [hrun, hsame]

/-- A walk over the sections of some units finds the records of their trees. -/
theorem UnitTree.outcome_run {units : List UnitTree} (hwf : ∀ u ∈ units, u.WellFormed)
    (hfit : Fit units) {s : DebugSections}
    (hinfo : s.info = units.flatMap (·.encode (tablesOf units)))
    (habbreviations : s.abbreviations = (tablesOf units).encodeShapes)
    (hstrings : s.strings = Utf8.encodeTexts (tablesOf units).texts) {desk : Desk}
    (hm : desk.memories = []) :
    (outcome (Walk.run (some s)) desk).1 = .ok (symbols units) := by
  have hs := shared_tablesOf hwf hfit habbreviations hstrings
  have hlength : units.length < s.info.length + 1 := by
    rw [hinfo]
    exact Nat.lt_succ_of_le (length_le_info units)
  have hlist : CompileUnit.list s = (decodedFrom (tablesOf units) 0 units, false) :=
    listFrom_decodedFrom hs (fun u hu => ⟨hwf u hu, hfit.lengths u hu⟩) hinfo hlength
  refine Walk.outcome_run_of_gives ?_ hm
  rw [CompileUnit.units, hlist]
  exact gives_decodedFrom hs (fun u hu => ⟨hwf u hu, fun t ht => legible_tablesOf hu (hwf u hu) ht⟩)
    hinfo

end ElfScope.Dwarf
