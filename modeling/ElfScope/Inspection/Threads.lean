import ElfScope.Inspection.Sections

/-! # Threads of a core dump

Each note segment that has content within the file is a thread; the content is not decoded. Threads
are numbered as they are found. A core dump without any has one thread with blank registers.
-/
namespace ElfScope.Inspection

def notesLogger : Text := "CoredumpNoteReader"

def blankRegisters : Bytes := List.replicate 64 0

/-- The content of a segment, or what is told of one without any. -/
def noteSlice (data : Bytes) (h : Elf.ProgramHeader) : Except LogRecord Bytes :=
  let stop := h.offset + h.fileSize
  if data.length < stop then
    .error ⟨.warning, notesLogger,
      "NOTE segment [0x" ++ Text.hex h.offset ++ ", 0x" ++ Text.hex stop ++
        ") goes past the end of the file (0x" ++ Text.hex data.length ++ " bytes). Skipped"⟩
  else if stop = h.offset then
    .error ⟨.debug, notesLogger, "Empty NOTE segment at offset 0x" ++ Text.hex h.offset⟩
  else .ok (data.slice h.offset h.fileSize)

def requireCoreDump (i : Inspection) : Except InputError Unit :=
  if i.fileKind = .coreDump then .ok ()
  else .error ⟨i.role, i.source, .notCoreDump i.fileKind⟩

/-- The notes in the order of the program header table. -/
def noteSlices : Inspecting (List Bytes) := do
  let data := (← get).file.bytes
  collectSegments fun h => do
    if !h.isNote then return none
    match noteSlice data h with
    | .ok slice => return some slice
    | .error r =>
      report r.level r.logger r.message
      return none

def threads : Inspecting (ThreadInfo × List ThreadInfo) := do
  let slices ← noteSlices
  match slices.zipIdx.map fun (registers, id) => (⟨id, registers⟩ : ThreadInfo) with
  | first :: others => return (first, others)
  | [] =>
    report .info notesLogger
      "No usable NOTE segment. Reporting a single thread with empty registers"
    return (⟨0, blankRegisters⟩, [])

def coreInfo : Inspecting CoreInfo := do
  let (first, others) ← threads
  return { architecture := (← get).architecture, first, others }

end ElfScope.Inspection
