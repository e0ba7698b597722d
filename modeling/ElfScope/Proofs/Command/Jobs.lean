import Mathlib
import ElfScope.Command.Run
import ElfScope.Proofs.Files.Trees

/-! # Jobs in a world

Each step of a command either goes on in the world that it leaves or ends the command there. What is
reported goes to the end of the log and nowhere else.
-/
namespace ElfScope

namespace World

/-- Nothing was printed, and of all files only the log was written, at its end. -/
structure Quiet (log : Option Path) (w w' : World) : Prop where
  tree : w.tree.Grows log w'.tree
  output : w'.output = w.output

/-- Nothing but reports came of a step. -/
structure Reported (log : Option Path) (w w' : World) : Prop extends Quiet log w w' where
  here : w'.here = w.here

variable {log : Option Path} {w w' last : World}

namespace Quiet

theorem refl (log : Option Path) (w : World) : Quiet log w w := ⟨.refl log w.tree, rfl⟩

theorem trans (h : Quiet log w w') (hnext : Quiet log w' last) : Quiet log w last :=
  ⟨h.tree.trans hnext.tree, hnext.output.trans h.output⟩

end Quiet

namespace Reported

theorem refl (log : Option Path) (w : World) : Reported log w w := ⟨.refl log w, rfl⟩

theorem trans (h : Reported log w w') (hnext : Reported log w' last) : Reported log w last :=
  ⟨h.toQuiet.trans hnext.toQuiet, hnext.here.trans h.here⟩

end Reported

/-- Where the log is, no directory is. -/
def Loggable (log : Option Path) (w : World) : Prop := ∀ p ∈ log, w.tree.node? p ≠ some .directory

theorem Quiet.loggable (h : Quiet log w w') (hw : Loggable log w) : Loggable log w' :=
  fun p hp hnode => hw p hp ((h.tree.directories p).mp hnode)

theorem run_putFile {name : Text} {p : Path} (change : Bytes → Bytes)
    (h : w.tree.target w.here name = .ok p) : putFile name change w =
      (.ok p, { w with tree := w.tree.put p (.file (change (w.tree.contentAt p))) }) := by
  unfold putFile
  rw [h]

theorem run_writeFile {name : Text} {p : Path} (content : Bytes)
    (h : w.tree.target w.here name = .ok p) : (Host.writeFile name content : StateM World _) w =
      (.ok (), { w with tree := w.tree.put p (.file content) }) := by
  have hput : (Host.writeFile name content : StateM World _) w =
      ((putFile name (fun _ => content) w).1.map fun _ => (),
        (putFile name (fun _ => content) w).2) := rfl
  rw [hput, run_putFile _ h]
  rfl

theorem run_enter {name : Text} {p : Path} (h : w.tree.directory w.here name = .ok p) :
    (Host.enter name : StateM World _) w = (.ok (), { w with here := p }) := by
  simp only [Host.enter]
  rw [h]

end World

open World

/-! ### Reports -/

namespace Reporter
variable {r : Reporter (StateM World)} {w : World}

theorem reported_tellOne (entry : LogRecord) (hw : Loggable r.sink w) :
    Reported r.sink w (r.tellOne entry w).2 := by
  obtain ⟨settings, sink⟩ := r
  unfold tellOne
  cases settings.shows entry with
  | false => exact .refl _ _
  | true =>
    cases sink with
    | none => exact ⟨⟨.refl _ _, rfl⟩, rfl⟩
    | some p => exact ⟨⟨.put (hw p rfl) _, rfl⟩, rfl⟩

theorem reported_tell (log : Log) (hw : Loggable r.sink w) :
    Reported r.sink w (r.tell log w).2 := by
  induction log generalizing w with
  | nil => exact .refl _ _
  | cons entry rest ih =>
    have hone := reported_tellOne entry hw
    exact hone.trans (ih (hone.toQuiet.loggable hw))

end Reporter

/-! ### Steps -/

namespace Program
variable {α β : Type} {w w' : World}

theorem run_bind_of_ok {x : Job (StateM World) α} {f : α → Job (StateM World) β} {a : α}
    (h : x.run w = (.ok a, w')) : (x >>= f).run w = (f a).run w' := by
  have hbind : (x >>= f).run w =
      ExceptT.bindCont f (x.run w).1 (x.run w).2 := rfl
  rw [hbind, h]
  rfl

theorem run_bind_of_error {x : Job (StateM World) α} {f : α → Job (StateM World) β}
    {e : Interruption} (h : x.run w = (.error e, w')) : (x >>= f).run w = (.error e, w') := by
  have hbind : (x >>= f).run w =
      ExceptT.bindCont f (x.run w).1 (x.run w).2 := rfl
  rw [hbind, h]
  rfl

theorem run_lift (act : StateM World α) :
    (liftM act : Job (StateM World) α).run w = (.ok (act w).1, (act w).2) := rfl

theorem run_orFail_of_ok {act : StateM World (Except FileError α)} {a : α} (path : Text)
    (h : act w = (.ok a, w')) : (orFail path act).run w = (.ok a, w') := by
  unfold orFail
  rw [run_bind_of_ok (run_lift act), h]
  rfl

theorem here_understand {f : CommandForm} {usage help : Text} {parsed : Except Stop α} :
    ((understand f usage help parsed : Job (StateM World) α).run w).2.here = w.here := by
  rcases parsed with (_ | _) | _ <;> rfl

/-- The name of the log file, if there is to be one. -/
def logName (a : Arguments) : Option Text := (a.value? logFileOption).filter (!·.isEmpty)

/-- A log file that can be written is there afterwards, and nothing else has changed. -/
theorem run_openReporter {level : Text} {a : Arguments} {settings : LogSettings}
    {log : Option Path} (hlevel : LogSettings.configure? level (a.value? disableOption) = some settings)
    (hlog : (logName a).map (fun name => w.tree.target w.here (Path.absolute w.here name)) =
      log.map .ok) :
    ∃ w', (openReporter level a : Job (StateM World) _).run w =
        (.ok { settings, sink := (log : Option Path) }, w') ∧
      Reported log w w' ∧ Loggable log w' := by
  unfold openReporter
  rw [hlevel]
  unfold logName at hlog
  generalize a.value? logFileOption = name at hlog ⊢
  rcases name with _ | _ | ⟨c, name⟩
  · cases log with
    | none => exact ⟨w, rfl, .refl _ _, nofun⟩
    | some p => cases hlog
  · cases log with
    | none => exact ⟨w, rfl, .refl _ _, nofun⟩
    | some p => cases hlog
  · cases log with
    | none => cases hlog
    | some p =>
      have htarget := Option.some.inj hlog
      have hnode := (FileTree.target_eq_ok.mp htarget).2.2
      -- The file is put there with the content that it has, or empty.
      have hgrows : w.tree.Grows (some p) (w.tree.put p (.file (w.tree.contentAt p))) := by
        have h := FileTree.Grows.put hnode []
        rwa [List.append_nil] at h
      have hopen := run_orFail_of_ok (Path.absolute w.here (c :: name)) (run_putFile id htarget)
      refine ⟨{ w with tree := w.tree.put p (.file (w.tree.contentAt p)) }, ?_,
        ⟨⟨hgrows, rfl⟩, rfl⟩, ?_⟩
      · exact (run_bind_of_ok rfl).trans (run_bind_of_ok hopen)
      · rintro _ ⟨⟩ h
        exact hnode ((hgrows.directories p).mp h)

end Program

end ElfScope
