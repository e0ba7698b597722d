import Mathlib
import ElfScope.Proofs.Elf.SegmentReading
import ElfScope.Proofs.Inspection.Images

/-! # The structure of images

An inspection of an image tells what the image was laid out from: its facts, its sections by number and
by name, and its segments.
-/
namespace ElfScope
open Elf

namespace SectionEntry

end SectionEntry

namespace Inspection

/-! ### Segments -/

end Inspection

/-! ### What is told of an image -/

/-- The names of the sections, the first of which is blank. The table of names comes last. -/
def Elf.Image.names (m : Image) : List Text :=
  if m.sections.isEmpty then [] else [] :: (m.sections.map (·.name) ++ [Text.ofString ".shstrtab"])

namespace Inspection

variable {m : Image} {n : Numbering} {f : File}

theorem entriesOf_bare (hf : m.Opens n f) (hs : m.sections = []) : entriesOf f = [] := by
  unfold entriesOf SectionEntry.readAll
  rw [hf.sectionCount? hs]
  rfl

end Inspection

end ElfScope
