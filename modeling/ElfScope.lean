import ElfScope.Log.Lines
import ElfScope.Main
import ElfScope.Record.Reading
import ElfScope.Proofs.Dwarf.Provenance
import ElfScope.Proofs.Analysis.Outcomes
import ElfScope.Proofs.Json.Numerals
import ElfScope.Proofs.Json.Strings
import ElfScope.Proofs.Json.RoundTrip
import ElfScope.Proofs.Analysis.Documents
import ElfScope.Proofs.Dwarf.Containment
import ElfScope.Proofs.Analysis.Trees
import ElfScope.Proofs.Bytes.Locality
import ElfScope.Proofs.Dwarf.Outline
import ElfScope.Proofs.Dwarf.Growth
import ElfScope.Proofs.Dwarf.Course
import ElfScope.Proofs.Dwarf.Ending
import ElfScope.Proofs.Dwarf.Extent
import ElfScope.Proofs.Dwarf.Lengthened
import ElfScope.Proofs.Dwarf.Shifted
import ElfScope.Proofs.Dwarf.ShiftedWalk
import ElfScope.Proofs.Dwarf.Concatenation
import ElfScope.Proofs.Elf.SegmentReading
import ElfScope.Proofs.Inspection.Structure
import ElfScope.Proofs.Record.Acceptance
import ElfScope.Proofs.Dwarf.UnsupportedVersions
import ElfScope.Proofs.Analysis.Inputs
import ElfScope.Proofs.Inspection.Storage
import ElfScope.Proofs.Dwarf.Traversal
import ElfScope.Proofs.Analysis.Shapes
import ElfScope.Proofs.Inspection.StringTables
import ElfScope.Proofs.Command.Calls
import ElfScope.Proofs.Inspection.Notes
import ElfScope.Proofs.Inspection.SectionNames
import ElfScope.Proofs.Inspection.CompressedForms
import ElfScope.Proofs.Dwarf.Repetition
import ElfScope.Proofs.Inspection.SectionTable
import ElfScope.Proofs.Inspection.LoadedSections
import ElfScope.Proofs.Dwarf.DecodedValues
import ElfScope.Proofs.Dwarf.Extraction
import ElfScope.Proofs.Dwarf.Recall
import ElfScope.Proofs.Dwarf.TypeCache
