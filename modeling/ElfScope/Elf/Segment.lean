import ElfScope.Elf.Section

/-! # Segments

The entries of the program header table. A dynamic segment can only be read together with the
section that describes it.
-/
namespace ElfScope.Elf.File

def segmentCount? (f : File) : Option Nat :=
  if f.header.programCount < extendedIndex then some f.header.programCount
  else (f.section? 0).map (·.header.info)

/-- Looks for the dynamic section at an offset among the sections that are left, from `index` on.
All sections before it must be readable, and so must be the one that it is linked to. -/
def dynamicReadable (f : File) (offset : Nat) : (left index : Nat) → Bool
  | 0, _ => true
  | left + 1, index =>
    match f.section? index with
    | none => false
    | some s =>
      if s.header.type = SectionType.dynamic ∧ s.header.offset = offset then
        (f.section? s.header.link).isSome
      else dynamicReadable f offset left (index + 1)

def segment? (f : File) (index : Nat) : Option ProgramHeader :=
  if 0 < f.header.programOffset ∧ f.header.programEntrySize < f.layout.programHeaderSize then none
  else
    let position := f.header.programOffset + index * f.header.programEntrySize
    match (ProgramHeader.decoder f.layout).valueAt f.bytes position with
    | .error _ => none
    | .ok h =>
      if h.isDynamic then
        match f.sectionCount? with
        | none => none
        | some count => if f.dynamicReadable h.offset count 0 then some h else none
      else some h

end ElfScope.Elf.File
