import Mathlib
import ElfScope.Proofs.Inspection.Loading

/-! # What a core dump tells

The notes are taken from the program headers of the file and from its bytes, so the threads depend on
the file alone.
-/
namespace ElfScope
open Elf

namespace Inspection

/-- What is made of the program headers that can be read. -/
def madeOf {α : Type} (f : File) (make : ProgramHeader → Option α) : List α :=
  match f.segmentCount? with
  | none => []
  | some count => ((List.range count).map fun index => (f.segment? index).bind make).filterMap id

/-- The content of a note that has some. -/
def noteOf (f : File) (h : ProgramHeader) : Option Bytes :=
  if h.isNote then (noteSlice f.bytes h).toOption else none

def notesOf (f : File) : List Bytes := madeOf f (noteOf f)

/-- The notes by number, or a thread that no note tells of. -/
def threadsOf (f : File) : ThreadInfo × List ThreadInfo :=
  match (notesOf f).zipIdx.map fun (registers, id) => (⟨id, registers⟩ : ThreadInfo) with
  | first :: others => (first, others)
  | [] => (⟨0, blankRegisters⟩, [])

def coreOf (f : File) : CoreInfo where
  architecture := .ofMachine f.header.machine
  first := (threadsOf f).1
  others := (threadsOf f).2

variable (f : File)

theorem answers_collectSegments {α : Type} {make : ProgramHeader → Inspecting (Option α)}
    {g : ProgramHeader → Option α} (h : ∀ p, Answers f (make p) (g p)) :
    Answers f (collectSegments make) (madeOf f g) := by
  unfold collectSegments madeOf
  apply answers_get
  intro i hi
  rw [hi.file]
  simp only
  cases f.segmentCount? with
  | none => exact (answers_report _ _ _).bind (answers_pure [])
  | some count =>
    apply Answers.bind
    · apply answers_mapM (g := fun index => (f.segment? index).bind g)
      intro index _
      cases f.segment? index with
      | none => exact (answers_report _ _ _).bind (answers_pure none)
      | some p => exact h p
    · exact answers_pure _

theorem answers_noteSlices : Answers f noteSlices (notesOf f) := by
  unfold noteSlices notesOf
  apply answers_get
  intro i hi
  rw [hi.file]
  apply answers_collectSegments
  intro p
  unfold noteOf
  cases p.isNote with
  | false => exact answers_pure none
  | true =>
    rw [if_pos rfl]
    cases noteSlice f.bytes p with
    | ok slice => exact answers_pure (some slice)
    | error r => exact (answers_report _ _ _).bind (answers_pure none)

theorem answers_threads : Answers f threads (threadsOf f) := by
  unfold threads threadsOf
  apply (answers_noteSlices f).bind
  cases (notesOf f).zipIdx.map fun (registers, id) => (⟨id, registers⟩ : ThreadInfo) with
  | nil => exact (answers_report _ _ _).bind (answers_pure _)
  | cons first others => exact answers_pure (first, others)

theorem answers_coreInfo : Answers f coreInfo (coreOf f) := by
  apply (answers_threads f).bind
  apply answers_get
  intro i hi
  have hmachine : i.architecture = .ofMachine f.header.machine := by
    rw [architecture, hi.file]
  rw [hmachine]
  exact answers_pure (coreOf f)

end Inspection

/-- The whole analysis of a core dump that can be opened depends on the file alone. -/
theorem Analysis.coreInfo_of_core {data : Bytes} {f : File} (h : File.read data = .ok f)
    (source : Text) :
    (coreInfo data source).1 =
      if FileKind.ofType f.header.type = .coreDump then .ok (Inspection.coreOf f)
      else .error ⟨.core, source, .notCoreDump (.ofType f.header.type)⟩ := by
  have hvalue := (Inspection.answers_coreInfo f _ (Inspection.agrees_new f .core source)).1
  rw [coreInfo_of_read h, hvalue]

end ElfScope
