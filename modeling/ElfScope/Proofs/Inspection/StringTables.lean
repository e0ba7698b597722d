import Mathlib
import ElfScope.Proofs.Inspection.Storage
import ElfScope.Proofs.Dwarf.RenamedWalk

/-! # Tables of strings

Two files that are loaded alike but for their tables of strings have the same symbols up to names,
whatever these tables are, also where they are missing or cut off.
-/
namespace ElfScope
open Elf

/-- Contents that are the same but for the tables of strings. -/
theorem DebugInfo.sectionsWith_restring {content altered : Text → Bytes}
    (h : ∀ name ∈ sectionNames, name ≠ ".debug_str" → name ≠ ".debug_line_str" →
      content name = altered name) :
    sectionsWith altered =
      (sectionsWith content).restring (altered ".debug_str") (altered ".debug_line_str") := by
  have hsame (name : Text)
      (hname : name ∈ sectionNames ∧ name ≠ ".debug_str" ∧ name ≠ ".debug_line_str") :
      content name = altered name := h name hname.1 hname.2.1 hname.2.2
  unfold sectionsWith Dwarf.DebugSections.restring
  rw [hsame ".debug_info" (by decide +kernel), hsame ".debug_abbrev" (by decide +kernel),
    hsame ".debug_addr" (by decide +kernel), hsame ".debug_str_offsets" (by decide +kernel),
    hsame ".debug_loclists" (by decide +kernel), hsame ".debug_rnglists" (by decide +kernel)]

namespace Inspection

/-- The sections that entries are decoded from, as they are loaded. -/
def loadedSections (i : Inspection) : Dwarf.DebugSections :=
  DebugInfo.sectionsWith fun name => ((load name).run i).1

theorem symbolsWith_restring {content altered : Text → Bytes}
    (h : ∀ name ∈ DebugInfo.sectionNames, name ≠ ".debug_str" → name ≠ ".debug_line_str" →
      content name = altered name) :
    Dwarf.Matching (Symbols.Renamed (DebugInfo.sectionsWith content) (altered ".debug_str")
      (altered ".debug_line_str")) (symbolsWith content) (symbolsWith altered) := by
  have hinfo := h ".debug_info" (by decide +kernel) (by decide +kernel) (by decide +kernel)
  unfold symbolsWith
  rw [← hinfo, DebugInfo.sectionsWith_restring h]
  split_ifs
  · exact .ok ⟨.nil, .nil, .nil⟩
  · exact Dwarf.Walk.run_restring _ _ _

/-- An inspection of bytes is in agreement with a file. -/
theorem exists_agrees {data : Bytes} {role : Role} {source : Text} {i : Inspection}
    (h : ofBytes data role source = .ok i) : ∃ f, Agrees f i := by
  unfold ofBytes at h
  cases hread : File.read data with
  | error e =>
    rw [hread] at h
    cases h
  | ok f =>
    rw [hread] at h
    cases h
    exact ⟨f, agrees_new f role source⟩

/-- In agreement with a file, the symbols are those of what is loaded. -/
theorem Agrees.run_extractSymbols_eq {f : File} {i : Inspection} (h : Agrees f i) :
    (extractSymbols.run i).1 = symbolsWith fun name => ((load name).run i).1 := by
  rw [run_extractSymbols h]
  exact symbolsOf_eq fun name _ => (answers_load f name i h).1.symm

/-- Files that are loaded alike but for their tables of strings have the same records in the same order,
with other names at most, or the walk has no end in either. -/
theorem strings_only_name {data data' : Bytes} {role role' : Role} {source source' : Text}
    {i i' : Inspection} (hopen : ofBytes data role source = .ok i)
    (hopen' : ofBytes data' role' source' = .ok i')
    (hsame : ∀ name ∈ DebugInfo.sectionNames, name ≠ ".debug_str" → name ≠ ".debug_line_str" →
      ((load name).run i).1 = ((load name).run i').1) :
    Dwarf.Matching (Symbols.Renamed i.loadedSections ((load ".debug_str").run i').1
      ((load ".debug_line_str").run i').1) (extractSymbols.run i).1 (extractSymbols.run i').1 := by
  obtain ⟨f, hf⟩ := exists_agrees hopen
  obtain ⟨f', hf'⟩ := exists_agrees hopen'
  rw [hf.run_extractSymbols_eq, hf'.run_extractSymbols_eq]
  exact symbolsWith_restring hsame

/-- A unit with one variable, whose name is at the start of the table of strings. -/
def namedContent (strings : Bytes) (name : Text) : Bytes :=
  if name = ".debug_info" then [14, 0, 0, 0, 4, 0, 0, 0, 0, 0, 8, 1, 2, 0, 0, 0, 0, 0]
  else if name = ".debug_abbrev" then [1, 17, 1, 0, 0, 2, 52, 0, 3, 14, 0, 0, 0]
  else if name = ".debug_str" then strings
  else []

def namedImage (strings : Bytes) : Image where
  layout := ⟨true, .little⟩
  type := 2
  machine := 62
  entry := 0x1000
  sections := DebugInfo.sectionNames.map fun name => { name, content := namedContent strings name }

theorem fits_namedImage : (namedImage [120, 0]).FitsAs {} ∧ (namedImage []).FitsAs {} := by
  have hsmall : ((namedImage [120, 0]).encodeAs {}).length < 4096 ∧
      ((namedImage []).encodeAs {}).length < 4096 := by decide +kernel
  constructor
  · exact ⟨by decide, by decide, by decide, by decide, by decide +kernel, by decide +kernel,
      hsmall.1.trans (by decide), hsmall.1.trans (by decide), by decide +kernel, by decide +kernel⟩
  · exact ⟨by decide, by decide, by decide, by decide, by decide +kernel, by decide +kernel,
      hsmall.2.trans (by decide), hsmall.2.trans (by decide), by decide +kernel, by decide +kernel⟩

theorem exists_namedImage {strings : Bytes} (h : (namedImage strings).FitsAs {}) :
    ∃ i, ofBytes ((namedImage strings).encodeAs {}) .elf "named" = .ok i ∧
      (∀ name ∈ DebugInfo.sectionNames, ((load name).run i).1 = namedContent strings name) ∧
      (extractSymbols.run i).1 = symbolsWith (namedContent strings) := by
  have hassigns : (namedImage strings).Assigns (namedContent strings) :=
    Image.assigns_plain (List.Perm.refl DebugInfo.sectionNames) rfl
  obtain ⟨f, hread, hdata⟩ := hassigns.exists_read h
  have hnew := agrees_new f .elf "named"
  refine ⟨_, ofBytes_of_read hread .elf "named", fun name hname => ?_, ?_⟩
  · exact (answers_load f name _ hnew).1.trans (hdata name hname)
  · exact (run_extractSymbols hnew).trans (symbolsOf_eq hdata)

def namedSections (strings : Bytes) : Dwarf.DebugSections where
  info := [14, 0, 0, 0, 4, 0, 0, 0, 0, 0, 8, 1, 2, 0, 0, 0, 0, 0]
  abbreviations := [1, 17, 1, 0, 0, 2, 52, 0, 3, 14, 0, 0, 0]
  strings

theorem symbolsWith_namedContent (strings : Bytes) : symbolsWith (namedContent strings) =
    (Dwarf.outcome (Dwarf.Walk.run (some (namedSections strings))) {}).1 := by
  have hother (name : Text) (h : name ≠ ".debug_info" ∧ name ≠ ".debug_abbrev" ∧
      name ≠ ".debug_str") : namedContent strings name = [] := by
    rw [namedContent, if_neg h.1, if_neg h.2.1, if_neg h.2.2]
  have hmissing (name : Text) (h : name ≠ ".debug_info" ∧ name ≠ ".debug_abbrev" ∧
      name ≠ ".debug_str") (hnever : name ∉ DebugInfo.alwaysProvided) :
      DebugInfo.provided name (namedContent strings name) = none := by
    rw [hother name h, DebugInfo.provided, if_pos ⟨rfl, hnever⟩]
  have hsections : DebugInfo.sectionsWith (namedContent strings) = namedSections strings := by
    rw [DebugInfo.sectionsWith, hother ".debug_line_str" (by decide +kernel),
      hmissing ".debug_addr" (by decide +kernel) (by decide +kernel),
      hmissing ".debug_str_offsets" (by decide +kernel) (by decide +kernel),
      hmissing ".debug_loclists" (by decide +kernel) (by decide +kernel),
      hmissing ".debug_rnglists" (by decide +kernel) (by decide +kernel)]
    rfl
  have hinfo : ¬(namedContent strings ".debug_info").isEmpty = true := by
    rw [namedContent, if_pos rfl]
    decide
  rw [symbolsWith, if_neg hinfo, hsections]

/-- The name of the variable is a string of the one table, and a default without it. -/
theorem strings_only_name_missing :
    ∃ i i', ofBytes ((namedImage [120, 0]).encodeAs {}) .elf "named" = .ok i ∧
      ofBytes ((namedImage []).encodeAs {}) .elf "named" = .ok i' ∧
      (extractSymbols.run i).1 = .ok { globals := [⟨"x", none, none, .void, .global⟩] } ∧
      (extractSymbols.run i').1 = .ok { globals := [⟨"<unknown>", none, none, .void, .global⟩] } ∧
      Dwarf.Matching (Symbols.Renamed i.loadedSections ((load ".debug_str").run i').1
        ((load ".debug_line_str").run i').1) (extractSymbols.run i).1 (extractSymbols.run i').1 := by
  obtain ⟨i, hopen, hload, hsymbols⟩ := exists_namedImage fits_namedImage.1
  obtain ⟨i', hopen', hload', hsymbols'⟩ := exists_namedImage fits_namedImage.2
  have hsame : ∀ name ∈ DebugInfo.sectionNames, name ≠ ".debug_str" → name ≠ ".debug_line_str" →
      ((load name).run i).1 = ((load name).run i').1 := by
    intro name hname hstr _
    rw [hload name hname, hload' name hname]
    unfold namedContent
    rw [if_neg hstr, if_neg hstr]
  rw [symbolsWith_namedContent] at hsymbols hsymbols'
  refine ⟨i, i', hopen, hopen', hsymbols.trans ?_, hsymbols'.trans ?_,
    strings_only_name hopen hopen' hsame⟩
  · cbv
  · cbv

end Inspection

end ElfScope
