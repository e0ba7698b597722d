import Mathlib
import ElfScope.Elf.File
import ElfScope.Proofs.Bytes.Results

/-! # Numbers of a file header

The fields of a header have the widths of their class, also where the file is not what it claims to be.
-/
namespace ElfScope.Elf

/-- The entry point fits in a word of eight bytes, the number of program headers in two bytes. -/
structure FileHeader.InRange (h : FileHeader) : Prop where
  entry : h.entry < 2 ^ 64
  programCount : h.programCount < 2 ^ 16

theorem FileHeader.yields_decoder (l : Layout) :
    (FileHeader.decoder l).Yields FileHeader.InRange := by
  have haddress : l.address.Yields (· < 2 ^ 64) := by
    intro bs a rest h
    have hlt := Decoder.yields_number l.order l.addressSize bs a rest h
    refine hlt.trans_le ?_
    unfold Layout.addressSize
    split_ifs <;> decide
  have hhalf : l.half.Yields (· < 2 ^ 16) := Decoder.yields_number l.order 2
  unfold FileHeader.decoder
  iterate 3 refine Decoder.yields_bind fun _ => ?_
  refine haddress.bind fun entry hentry => ?_
  iterate 5 refine Decoder.yields_bind fun _ => ?_
  refine hhalf.bind fun count hcount => ?_
  iterate 3 refine Decoder.yields_bind fun _ => ?_
  exact Decoder.yields_pure ⟨hentry, hcount⟩

namespace File

/-- A file that is opened keeps the bytes, and the header and the table of names read from them. -/
structure ReadFrom (data : Bytes) (f : File) : Prop where
  bytes : f.bytes = data
  header : (FileHeader.decoder f.layout).valueAt data 16 = .ok f.header
  nameTable : readNameTable data f.layout f.header = .ok f.nameTable

theorem readFrom {data : Bytes} {f : File} (h : File.read data = .ok f) : f.ReadFrom data := by
  obtain ⟨l, -, h⟩ := Except.bind_eq_ok.mp h
  obtain ⟨header, hheader, h⟩ := Except.bind_eq_ok.mp h
  obtain ⟨nameTable, htable, h⟩ := Except.bind_eq_ok.mp h
  cases h
  refine ⟨rfl, ?_, htable⟩
  change (FileHeader.decoder l).valueAt data 16 = .ok header
  cases hvalue : (FileHeader.decoder l).valueAt data 16 with
  | error e =>
    rw [hvalue] at hheader
    cases hheader
  | ok a =>
    rw [hvalue] at hheader
    cases hheader
    rfl

theorem ReadFrom.inRange {data : Bytes} {f : File} (h : f.ReadFrom data) : f.header.InRange :=
  (FileHeader.yields_decoder f.layout).valueAt h.header

end File

end ElfScope.Elf
