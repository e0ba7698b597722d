import Mathlib
import ElfScope.Proofs.Inspection.SectionTable
import ElfScope.Proofs.Inspection.Storage

/-! # What is loaded of a file

A name is loaded from the first section of the name. Only where there is none is the old name looked
for, and only for a debug section. A section that is there and cannot be read is empty. What is loaded
is kept, so later requests are answered alike.
-/
namespace ElfScope
open Elf

/-! ### The old form -/

/-- The old form is a magic word, the size of the content, and a complete stream of the content. -/
theorem DebugInfo.inflateOld?_eq_some {data content : Bytes} :
    inflateOld? data = some content ↔ content.length < Bytes.limit 8 ∧
      ∃ stream, data = encodeOld content.length stream ∧
        Zlib.inflateWhole? stream = some content := by
  constructor
  · intro h
    unfold inflateOld? at h
    split_ifs at h with hmagic
    obtain ⟨hlength, hword⟩ := not_or.mp hmagic
    rw [not_lt] at hlength
    rw [not_not] at hword
    obtain ⟨content', hstream, h⟩ := Option.bind_eq_some_iff.mp h
    split_ifs at h with hsize
    cases h
    have height : (data.slice 4 8).length = 8 := by
      unfold Bytes.slice
      rw [List.length_take, List.length_drop]
      omega
    refine ⟨?_, data.drop 12, ?_, hstream⟩
    · have hvalue := Bytes.value_lt .big (data.slice 4 8)
      rwa [height, ← hsize] at hvalue
    · have hnumber : Bytes.ofNat .big 8 content.length = data.slice 4 8 := by
        have hback := Bytes.ofNat_value .big (data.slice 4 8)
        rwa [height, ← hsize] at hback
      have hrest : data.slice 4 8 ++ data.drop 12 = data.drop 4 := by
        unfold Bytes.slice
        rw [show data.drop 12 = (data.drop 4).drop 8 by rw [List.drop_drop], List.take_append_drop]
      unfold encodeOld
      rw [hnumber, hrest, ← hword, List.take_append_drop]
  · rintro ⟨hsize, stream, rfl, hstream⟩
    rw [inflateOld?_encodeOld stream hsize, hstream, Zlib.ofSize_some rfl]

theorem DebugInfo.provided_eq_none {name : Text} {data : Bytes} :
    provided name data = none ↔ data = [] ∧ name ∉ alwaysProvided := by
  rw [← List.isEmpty_iff]
  unfold provided
  split_ifs with hmissing
  · exact iff_of_true rfl hmissing
  · exact iff_of_false not_false hmissing

theorem DebugInfo.eq_of_provided {name : Text} {data content : Bytes}
    (h : provided name data = some content) : content = data := by
  unfold provided at h
  split_ifs at h
  exact (Option.some.inj h).symm

namespace Inspection

/-- The content that a section stores in the old form. -/
def StoresOld (f : File) (s : Section) (content : Bytes) : Prop :=
  content.length < Bytes.limit 8 ∧
    ∃ stream, f.content? s = some (DebugInfo.encodeOld content.length stream) ∧
      Zlib.inflateWhole? stream = some content

/-- No entry of the name has a section. -/
def NoneCalled (f : File) (name : Text) : Prop :=
  ∀ e ∈ entriesOf f, e.name = name → e.found = none

/-- What is loaded under a name, by what the file has under it. -/
inductive Loads (f : File) (name : Text) : Bytes → Prop where
  | stored (k : Nat) (s : Section) (data : Bytes) (h : IsFirst (entriesOf f) name k s)
      (hbits : s.header.noBits = false) (hdata : f.content? s = some data) : Loads f name data
  | lost (k : Nat) (s : Section) (h : IsFirst (entriesOf f) name k s)
      (hlost : s.header.noBits = true ∨ f.content? s = none) : Loads f name []
  | inflated (k : Nat) (s : Section) (content : Bytes) (hnone : NoneCalled f name)
      (hdebug : name.startsWith ".debug_" = true)
      (h : IsFirst (entriesOf f) (DebugInfo.oldName name) k s) (hbits : s.header.noBits = false)
      (hold : StoresOld f s content) : Loads f name content
  | spoiled (k : Nat) (s : Section) (hnone : NoneCalled f name)
      (hdebug : name.startsWith ".debug_" = true)
      (h : IsFirst (entriesOf f) (DebugInfo.oldName name) k s)
      (hspoiled : s.header.noBits = true ∨ ∀ content, ¬StoresOld f s content) : Loads f name []
  | missing (hnone : NoneCalled f name)
      (hold : name.startsWith ".debug_" = true → NoneCalled f (DebugInfo.oldName name)) :
      Loads f name []

section
variable {f : File} {name : Text} {s : Section}

theorem bind_inflateOld?_eq_some {content : Bytes} :
    (f.content? s).bind DebugInfo.inflateOld? = some content ↔ StoresOld f s content := by
  unfold StoresOld
  rw [Option.bind_eq_some_iff]
  constructor
  · rintro ⟨data, hdata, hcontent⟩
    obtain ⟨hsize, stream, rfl, hstream⟩ := DebugInfo.inflateOld?_eq_some.mp hcontent
    exact ⟨hsize, stream, hdata, hstream⟩
  · rintro ⟨hsize, stream, hdata, hstream⟩
    exact ⟨_, hdata, DebugInfo.inflateOld?_eq_some.mpr ⟨hsize, stream, rfl, hstream⟩⟩

theorem storedOf_of_noBits (h : s.header.noBits = true) (old : Bool) : storedOf f s old = [] :=
  if_pos h

theorem storedOf_of_unread (h : f.content? s = none) : storedOf f s false = [] := by
  unfold storedOf
  rw [if_neg Bool.false_ne_true, h]
  exact ite_self _

theorem storedOf_of_storesOld {content : Bytes} (hbits : s.header.noBits = false)
    (h : StoresOld f s content) : storedOf f s true = content := by
  unfold storedOf
  rw [hbits, if_pos rfl, bind_inflateOld?_eq_some.mpr h]
  rfl

theorem storedOf_of_not_storesOld (h : ∀ content, ¬StoresOld f s content) :
    storedOf f s true = [] := by
  have hnone : (f.content? s).bind DebugInfo.inflateOld? = none :=
    Option.eq_none_iff_forall_ne_some.mpr fun content hcontent =>
      h content (bind_inflateOld?_eq_some.mp hcontent)
  unfold storedOf
  rw [if_pos rfl, hnone]
  exact ite_self _

theorem loads_first {k : Nat} (h : IsFirst (entriesOf f) name k s) :
    Loads f name (storedOf f s false) := by
  cases hbits : s.header.noBits with
  | true =>
    rw [storedOf_of_noBits hbits]
    exact .lost k s h (.inl hbits)
  | false =>
    cases hdata : f.content? s with
    | none =>
      rw [storedOf_of_unread hdata]
      exact .lost k s h (.inr hdata)
    | some data =>
      rw [storedOf_of_content hbits hdata]
      exact .stored k s data h hbits hdata

theorem loads_old {k : Nat} (hnone : NoneCalled f name) (hdebug : name.startsWith ".debug_" = true)
    (h : IsFirst (entriesOf f) (DebugInfo.oldName name) k s) :
    Loads f name (storedOf f s true) := by
  cases hbits : s.header.noBits with
  | true =>
    rw [storedOf_of_noBits hbits]
    exact .spoiled k s hnone hdebug h (.inl hbits)
  | false =>
    by_cases hstores : ∃ content, StoresOld f s content
    · obtain ⟨content, hcontent⟩ := hstores
      rw [storedOf_of_storesOld hbits hcontent]
      exact .inflated k s content hnone hdebug h hbits hcontent
    · have hnot := not_exists.mp hstores
      rw [storedOf_of_not_storesOld hnot]
      exact .spoiled k s hnone hdebug h (.inr hnot)

theorem loads_dataOf (f : File) (name : Text) : Loads f name (dataOf f name) := by
  cases hfirst : firstOf f name with
  | some found =>
    rw [dataOf_of_first (by rw [hfirst]; rfl)]
    exact loads_first (firstOf_eq_some.mp hfirst)
  | none =>
    have hnone := firstOf_eq_none.mp hfirst
    by_cases hdebug : name.startsWith ".debug_" = true
    · cases hold : firstOf f (DebugInfo.oldName name) with
      | some found =>
        rw [dataOf_of_old hfirst hdebug (by rw [hold]; rfl)]
        exact loads_old hnone hdebug (firstOf_eq_some.mp hold)
      | none =>
        rw [dataOf_of_missing hfirst fun _ => hold]
        exact .missing hnone fun _ => firstOf_eq_none.mp hold
    · rw [dataOf_of_missing hfirst fun h => absurd h hdebug]
      exact .missing hnone fun h => absurd h hdebug

/-- A file has only one thing to load under a name. -/
theorem Loads.eq_dataOf {data : Bytes} (h : Loads f name data) : data = dataOf f name := by
  cases h with
  | stored k s data h hbits hdata =>
    rw [dataOf_of_first (by rw [firstOf_eq_some.mpr h]; rfl), storedOf_of_content hbits hdata]
    rfl
  | lost k s h hlost =>
    rw [dataOf_of_first (by rw [firstOf_eq_some.mpr h]; rfl)]
    rcases hlost with hbits | hunread
    · exact (storedOf_of_noBits hbits false).symm
    · exact (storedOf_of_unread hunread).symm
  | inflated k s content hnone hdebug h hbits hold =>
    rw [dataOf_of_old (firstOf_eq_none.mpr hnone) hdebug (by rw [firstOf_eq_some.mpr h]; rfl)]
    exact (storedOf_of_storesOld hbits hold).symm
  | spoiled k s hnone hdebug h hspoiled =>
    rw [dataOf_of_old (firstOf_eq_none.mpr hnone) hdebug (by rw [firstOf_eq_some.mpr h]; rfl)]
    rcases hspoiled with hbits | hnot
    · exact (storedOf_of_noBits hbits true).symm
    · exact (storedOf_of_not_storesOld hnot).symm
  | missing hnone hold =>
    exact (dataOf_of_missing (firstOf_eq_none.mpr hnone) fun h =>
      firstOf_eq_none.mpr (hold h)).symm

end

/-! ### Any use of the loader -/

/-- What can be asked of the debug sections. -/
inductive LoadUse where
  | load (name : Text)
  | hasDebugInfo
  | loadDebugInfo

/-- What is asked for is kept; the answer is not looked at. -/
def request : LoadUse → Inspecting Unit
  | .load name => do
    let _ ← load name
  | .hasDebugInfo => do
    let _ ← hasDebugInfo
  | .loadDebugInfo => do
    let _ ← loadDebugInfo

def afterLoads (i : Inspection) (uses : List LoadUse) : Inspection := ((uses.forM request).run i).2

theorem answers_request (f : File) (use : LoadUse) : Answers f (request use) () := by
  cases use with
  | load name => exact (answers_load f name).bind (answers_pure ())
  | hasDebugInfo => exact (answers_hasDebugInfo f).bind (answers_pure ())
  | loadDebugInfo => exact (answers_loadDebugInfo f).bind (answers_pure ())

theorem agrees_afterLoads {f : File} {i : Inspection} (hi : Agrees f i) (uses : List LoadUse) :
    Agrees f (i.afterLoads uses) := by
  induction uses generalizing i with
  | nil => exact hi
  | cons use uses ih => exact ih (answers_request f use i hi).2.1

/-- How the debug sections are passed on: as missing just where they are empty and may be missing, and
with what is loaded otherwise. -/
structure PassedOn (f : File) (loaded : Text → Bytes) (d : DebugInfo) : Prop where
  addressSize : d.addressSize = f.layout.addressSize
  names : d.sections.map Prod.fst = DebugInfo.sectionNames
  missing : ∀ name content, (name, content) ∈ d.sections →
    (content = none ↔ loaded name = [] ∧ name ∉ DebugInfo.alwaysProvided)
  present : ∀ name data, (name, some data) ∈ d.sections → data = loaded name

theorem passedOn_of_debugOf {f : File} {d : DebugInfo} (h : debugOf f = some d) :
    PassedOn f (dataOf f) d := by
  unfold debugOf at h
  split_ifs at h
  cases h
  refine ⟨rfl, ?_, fun name content hmem => ?_, fun name data hmem => ?_⟩
  · rw [List.map_map]
    exact List.map_id _
  · obtain ⟨name', -, hpair⟩ := List.mem_map.mp hmem
    obtain ⟨rfl, rfl⟩ := Prod.mk.inj hpair
    exact DebugInfo.provided_eq_none
  · obtain ⟨name', -, hpair⟩ := List.mem_map.mp hmem
    obtain ⟨rfl, hprovided⟩ := Prod.mk.inj hpair
    exact DebugInfo.eq_of_provided hprovided

/-- After any requests a name is loaded as the file has it. There is debug information where its section
is not empty, and then every debug section is passed on as it is loaded. -/
theorem loads_by_file {data : Bytes} {role : Role} {source : Text} {i : Inspection}
    (h : ofBytes data role source = .ok i) (uses : List LoadUse) :
    (∀ name content,
      ((load name).run (i.afterLoads uses)).1 = content ↔ Loads i.file name content) ∧
    ((hasDebugInfo.run (i.afterLoads uses)).1 = true ↔
      ((load ".debug_info").run (i.afterLoads uses)).1 ≠ []) ∧
    ((loadDebugInfo.run (i.afterLoads uses)).1 = none ↔
      (hasDebugInfo.run (i.afterLoads uses)).1 = false) ∧
    ∀ d, (loadDebugInfo.run (i.afterLoads uses)).1 = some d →
      PassedOn i.file (fun name => ((load name).run (i.afterLoads uses)).1) d := by
  have hi := agrees_afterLoads (file_of_ofBytes h).2 uses
  have hload (name : Text) : ((load name).run (i.afterLoads uses)).1 = dataOf i.file name :=
    (answers_load i.file name _ hi).1
  have hinfo : (hasDebugInfo.run (i.afterLoads uses)).1 = !(dataOf i.file ".debug_info").isEmpty :=
    (answers_hasDebugInfo i.file _ hi).1
  have hdebug : (loadDebugInfo.run (i.afterLoads uses)).1 = debugOf i.file :=
    (answers_loadDebugInfo i.file _ hi).1
  rw [hinfo, hdebug]
  simp only [hload]
  refine ⟨fun name content => ⟨?_, fun hloads => hloads.eq_dataOf.symm⟩, ?_, ?_,
    fun d => passedOn_of_debugOf⟩
  · rintro rfl
    exact loads_dataOf i.file name
  · rw [Bool.not_eq_true', List.isEmpty_eq_false_iff]
  · unfold debugOf
    cases (!(dataOf i.file ".debug_info").isEmpty : Bool) with
    | true => exact iff_of_false (Option.some_ne_none _) Bool.true_eq_false.mp
    | false => exact iff_of_true rfl rfl

/-- Requests before a last one, some of them for the same section. -/
def severalLoads : List LoadUse :=
  [.load ".eh_frame", .loadDebugInfo, .load ".debug_info", .hasDebugInfo, .load ".debug_info"]

/-- The section of the entries is stored in the old form, and is loaded after other requests. -/
theorem loads_by_file_mixed :
    ∃ i, ofBytes (mixedImage.encodeAs {}) .elf [] = .ok i ∧
      ((load ".debug_info").run (i.afterLoads severalLoads)).1 = variableContent ".debug_info" ∧
      (hasDebugInfo.run (i.afterLoads severalLoads)).1 = true ∧
      ∃ d, (loadDebugInfo.run (i.afterLoads severalLoads)).1 = some d ∧
        d.sections.map Prod.fst = DebugInfo.sectionNames := by
  have hsmall : (mixedImage.encodeAs {}).length < 4096 := by decide +kernel
  have hfits : mixedImage.FitsAs {} :=
    ⟨by decide, by decide, by decide, by decide, by decide, by decide, hsmall.trans (by decide),
      hsmall.trans (by decide), by decide +kernel, by decide +kernel⟩
  obtain ⟨f, hread, hdata⟩ := assigns_mixedImage.exists_read hfits
  have hopen := ofBytes_of_read hread .elf []
  obtain ⟨hload, hinfo, hdebug, hpassed⟩ := loads_by_file hopen severalLoads
  have hloaded := (hload ".debug_info" (variableContent ".debug_info")).mpr
    (hdata ".debug_info" (by decide) ▸ loads_dataOf f ".debug_info")
  have hholds := hinfo.mpr (by rw [hloaded]; decide)
  refine ⟨_, hopen, hloaded, hholds, ?_⟩
  cases hd : (loadDebugInfo.run (afterLoads _ severalLoads)).1 with
  | none => exact absurd (hdebug.mp hd) (by rw [hholds]; decide)
  | some d => exact ⟨d, rfl, (hpassed d hd).names⟩

end Inspection

end ElfScope
