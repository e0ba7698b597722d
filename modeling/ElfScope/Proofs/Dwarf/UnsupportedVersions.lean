import Mathlib
import ElfScope.Proofs.Dwarf.Reports

/-! # Units of other versions

A header with a version that is not supported cannot be decoded. So the units before the first such one
are walked, and it hides itself and all units after it. What is reported is the header, not the version.
-/
namespace ElfScope

namespace Decoder
variable {α β : Type}

/-- The decoder fails on these bytes, whatever follows them. -/
def Fails (d : Decoder α) (bs : Bytes) : Prop := ∀ rest, ∃ e, d.run (bs ++ rest) = .error e

theorem fails_throw_bind (e : Shortage) (f : α → Decoder β) :
    Fails ((throw e : Decoder α) >>= f) [] := fun _ => ⟨e, rfl⟩

theorem Reads.fails {d : Decoder α} {f : α → Decoder β} {bs bs' : Bytes} {a : α} (hd : Reads d bs a)
    (hf : Fails (f a) bs') : Fails (d >>= f) (bs ++ bs') := by
  intro rest
  obtain ⟨e, he⟩ := hf rest
  refine ⟨e, ?_⟩
  rw [StateT.run_bind, List.append_assoc, hd]
  exact he

end Decoder

namespace Dwarf
open Decoder

/-- The length of a unit, in one of the two formats, and its version. -/
def UnitHeader.encodeFront (wide : Bool) (length version : Nat) : Bytes :=
  (if wide then Bytes.ofNat .little 4 0xffffffff ++ Bytes.ofNat .little 8 length
    else Bytes.ofNat .little 4 length) ++ Bytes.ofNat .little 2 version

/-- The least length that a unit cannot have. -/
def UnitHeader.lengthLimit (wide : Bool) : Nat := if wide then Bytes.limit 8 else 0xffffff00

/-- The bytes start with a unit whose version is not supported. -/
def StartsUnsupported (b : Bytes) : Prop :=
  ∃ wide length version rest, b = UnitHeader.encodeFront wide length version ++ rest ∧
    length < UnitHeader.lengthLimit wide ∧ version < Bytes.limit 2 ∧ ¬(2 ≤ version ∧ version ≤ 5)

theorem UnitHeader.fails_decoder {wide : Bool} {length version : Nat}
    (hlength : length < UnitHeader.lengthLimit wide) (hfits : version < Bytes.limit 2)
    (hversion : ¬(2 ≤ version ∧ version ≤ 5)) :
    UnitHeader.decoder.Fails (UnitHeader.encodeFront wide length version) := by
  have hunsupported : version < 2 ∨ 5 < version := by omega
  have hread := reads_number .little hfits
  unfold UnitHeader.decoder UnitHeader.encodeFront
  rw [← List.append_nil (Bytes.ofNat .little 2 version)]
  cases wide with
  | true =>
    have hmark : 0xffffffff < Bytes.limit 4 := by decide
    rw [if_pos rfl, List.append_assoc]
    apply (reads_number .little hmark).fails
    rw [if_neg (by decide)]
    apply (reads_number .little hlength).fails
    apply hread.fails
    rw [if_pos hunsupported]
    exact fails_throw_bind _ _
  | false =>
    have hnarrow : length < 0xffffff00 := hlength
    have hne : decide (length = 0xffffffff) = false := decide_eq_false (by omega)
    rw [if_neg (by decide)]
    apply (reads_number .little (hnarrow.trans (by decide))).fails
    rw [if_neg (by omega)]
    simp only [hne]
    rw [if_neg (by simp), pure_bind]
    apply hread.fails
    rw [if_pos hunsupported]
    exact fails_throw_bind _ _

namespace CompileUnit
variable {s : DebugSections} {u : CompileUnit} {us : List CompileUnit} {b : Bytes} {o : Nat}

theorem supported_of_mem_listFrom {fuel : Nat} (h : u ∈ (listFrom s fuel o).1) :
    2 ≤ u.encoding.version ∧ u.encoding.version ≤ 5 :=
  (supported_of_at? (at?_of_mem_listFrom h)).version

theorem at?_of_startsUnsupported (hb : StartsUnsupported b) : at? (s.withInfo b) 0 = none := by
  obtain ⟨wide, length, version, rest, rfl, hlength, hfits, hversion⟩ := hb
  obtain ⟨e, he⟩ := UnitHeader.fails_decoder hlength hfits hversion rest
  unfold at? Decoder.runAt
  rw [List.drop_zero, show UnitHeader.decoder.run (s.withInfo _).info = _ from he]

theorem list_of_startsUnsupported (hb : b = [] ∨ StartsUnsupported b) :
    list (s.withInfo b) = ([], !b.isEmpty) := by
  cases b with
  | nil => rfl
  | cons byte rest =>
    have hnone := at?_of_startsUnsupported (s := s) (hb.resolve_left (List.cons_ne_nil byte rest))
    have hpos : ¬(s.withInfo (byte :: rest)).info.length ≤ 0 := Nat.not_succ_le_zero rest.length
    unfold list
    rw [listFrom, if_neg hpos, hnone]
    rfl

/-- The units that fill a section are all that is found before a header that is not supported. -/
theorem Tiles.list_eq (h : Tiles s 0 us) (hb : b = [] ∨ StartsUnsupported b) :
    list (s.extend b) = (us, !b.isEmpty) := by
  have hnone := list_of_startsUnsupported (s := s) hb
  rw [h.list_extend b, units, hnone]
  simp

end CompileUnit

namespace Walk
variable {s : DebugSections} {us : List CompileUnit} {b : Bytes}

open CompileUnit

/-- No walk of any debug information tells of a version. -/
theorem versionReport_notMem_log (sections : Option DebugSections) (version : Int) :
    versionReport version ∉ (outcome (run sections) {}).2.log := by
  cases sections with
  | none =>
    intro h
    cases h
  | some s =>
    rcases hlist : CompileUnit.list s with ⟨us, broken⟩
    have hsupported : ∀ u ∈ us, 2 ≤ u.encoding.version ∧ u.encoding.version ≤ 5 := by
      intro u hu
      apply supported_of_mem_listFrom
      rw [show listFrom s _ _ = _ from hlist]
      exact hu
    have hlog := log_forM (s := s) hsupported
    intro h
    rcases hr : outcome (us.forM (walkUnit s)) {} with ⟨e | _, desk⟩ <;> rw [hr] at hlog
    · rw [outcome_run_of_forM_error hlist hr] at h
      exact (hlog _ h).ne_versionReport version rfl
    · rw [outcome_run_of_forM hlist hr] at h
      rcases List.mem_append.mp h with h | h
      · rcases List.mem_append.mp h with h | h
        · exact (hlog _ h).ne_versionReport version rfl
        · split_ifs at h
          · cases congrArg (fun r => r.message.take 1) (List.mem_singleton.mp h)
          · cases h
      · cases congrArg LogRecord.level (List.mem_singleton.mp h)

/-- The units before the first one of another version add all of their symbols, and that is all that
is found. No version is ever told of; the first header that is not supported is, once. -/
theorem run_until_unsupported (hus : Tiles s 0 us) (hwhole : ∀ u ∈ us, u.Whole s)
    (hb : b = [] ∨ StartsUnsupported b) :
    ∃ added, List.Forall₂ (fun u a => (u.addedByUnit s).Gives a) us added ∧
      CompileUnit.units (s.extend b) = us ∧
      (outcome (run (some (s.extend b))) {}).1 = .ok (Symbols.concat added) ∧
      (∀ version, versionReport version ∉ (outcome (run (some (s.extend b))) {}).2.log) ∧
      (outcome (run (some (s.extend b))) {}).2.log.count headerReport = if b = [] then 0 else 1 := by
  have hlist := hus.list_eq hb
  have hdistinct : us.Pairwise (·.offset ≠ ·.offset) := hus.units_eq ▸ (pairwise_listFrom s _ 0).2
  obtain ⟨added, hadded⟩ := exists_forall₂ fun u hu => (hwhole u hu).addedByUnit b
  obtain ⟨desk, hrun, hpassed⟩ := passed_forM hdistinct (fun u _ => fresh_empty u)
    (hadded.imp fun _ _ h => h.2)
  have hfound : desk.found = Symbols.concat added :=
    hpassed.found.trans (Symbols.empty_append _)
  refine ⟨added, hadded.imp fun _ _ h => h.1, congrArg Prod.fst hlist, ?_⟩
  refine ⟨?_, versionReport_notMem_log _, ?_⟩
  · rw [outcome_run_of_forM hlist hrun]
    exact congrArg Except.ok hfound
  · have hsupported : ∀ u ∈ us, 2 ≤ u.encoding.version ∧ u.encoding.version ≤ 5 := by
      intro u hu
      rw [← hus.units_eq] at hu
      exact supported_of_mem_listFrom hu
    have hlog := log_forM (s := s.extend b) hsupported
    rw [hrun] at hlog
    have hbefore : desk.log.count headerReport = 0 :=
      List.count_eq_zero.mpr fun h => (hlog _ h).ne_headerReport rfl
    have hafter : [summaryReport desk.found].count headerReport = 0 := by
      apply List.count_eq_zero.mpr
      intro h
      cases congrArg LogRecord.level (List.mem_singleton.mp h)
    rw [outcome_run_of_forM hlist hrun, List.count_append, List.count_append, hbefore, hafter]
    cases b with
    | nil => rfl
    | cons byte rest => simp

/-- Debug information whose units each have one variable with a name in them. -/
def namedVariables (info : Bytes) : DebugSections where
  info := info
  abbreviations := [1, 17, 1, 0, 0, 2, 52, 0, 3, 8, 0, 0, 0]

def unitOfVersion4 : Bytes := [12, 0, 0, 0, 4, 0, 0, 0, 0, 0, 8, 1, 2, 120, 0, 0]

/-- With the layout of version 5. -/
def unitOfVersion6 : Bytes := [13, 0, 0, 0, 6, 0, 1, 8, 0, 0, 0, 0, 1, 2, 121, 0, 0]

theorem startsUnsupported_version6 (rest : Bytes) : StartsUnsupported (unitOfVersion6 ++ rest) :=
  ⟨false, 13, 6, unitOfVersion6.drop 6 ++ rest, by rfl, by decide, by decide, by decide⟩

/-- The variable of the first unit is found; those of the next one, which is not supported, and of the
one after it are not. -/
theorem namedVariables_until_version6 :
    (outcome (run (some ((namedVariables unitOfVersion4).extend
        (unitOfVersion6 ++ unitOfVersion4)))) {}).1 =
      .ok { globals := [⟨"x", none, none, .void, .global⟩] } ∧
    (∀ version, versionReport version ∉ (outcome (run (some ((namedVariables unitOfVersion4).extend
        (unitOfVersion6 ++ unitOfVersion4)))) {}).2.log) ∧
    (outcome (run (some ((namedVariables unitOfVersion4).extend
        (unitOfVersion6 ++ unitOfVersion4)))) {}).2.log.count headerReport = 1 := by
  obtain ⟨u, hus, hwhole⟩ := @Tiles.exists_single (namedVariables unitOfVersion4)
    (by decide +kernel) (by decide +kernel)
  obtain ⟨-, -, -, -, hversions, hcount⟩ := run_until_unsupported hus
    (fun w hw => List.mem_singleton.mp hw ▸ hwhole) (.inr (startsUnsupported_version6 unitOfVersion4))
  exact ⟨by cbv, hversions, hcount⟩

/-- A unit of another version hides one that has a variable of its own, and nothing tells of the
version. -/
theorem version6_hides_version4 :
    (outcome (run (some (namedVariables (unitOfVersion6 ++ unitOfVersion4)))) {}).1 = .ok {} ∧
    (outcome (run (some (namedVariables (unitOfVersion6 ++ unitOfVersion4)))) {}).2.log =
      [headerReport, summaryReport {}] ∧
    (outcome (run (some (namedVariables unitOfVersion4))) {}).1 =
      .ok { globals := [⟨"x", none, none, .void, .global⟩] } := by
  refine ⟨by cbv, by decide +kernel, by cbv⟩

end Walk

end Dwarf

end ElfScope
