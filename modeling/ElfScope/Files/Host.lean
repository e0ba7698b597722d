import ElfScope.Files.Tree

/-! # Hosts

What the program asks of the system that it runs on, and a host that is a value.
-/
namespace ElfScope

class Host (m : Type → Type) where
  /-- A place that can be returned to. -/
  Place : Type
  /-- A file that is open for adding to it. -/
  Sink : Type
  readFile : Text → m (Except FileError Bytes)
  writeFile : Text → Bytes → m (Except FileError Unit)
  isFile : Text → m Bool
  openSink : Text → m (Except FileError Sink)
  addTo : Sink → Bytes → m Unit
  /-- The absolute form of a name. -/
  absolute : Text → m Text
  place : m Place
  enter : Text → m (Except FileError Unit)
  goBack : Place → m Unit
  /-- Writes to the standard output. -/
  write : Text → m Unit
  /-- Writes to the standard error. -/
  complain : Text → m Unit
  /-- The time since the start. -/
  uptime : m Text

/-- The host of a monad whose actions can be lifted to another one. -/
abbrev Host.lifted {m n : Type → Type} [Host m] (lift : {α : Type} → m α → n α) : Host n where
  Place := Host.Place m
  Sink := Host.Sink m
  readFile name := lift (Host.readFile name)
  writeFile name content := lift (Host.writeFile name content)
  isFile name := lift (Host.isFile name)
  openSink name := lift (Host.openSink name)
  addTo sink content := lift (Host.addTo sink content)
  absolute name := lift (Host.absolute name)
  place := lift Host.place
  enter name := lift (Host.enter name)
  goBack place := lift (Host.goBack place)
  write t := lift (Host.write t)
  complain t := lift (Host.complain t)
  uptime := lift Host.uptime

instance {m : Type → Type} [Monad m] [Host m] {σ : Type} : Host (StateT σ m) :=
  Host.lifted StateT.lift

instance {m : Type → Type} [Monad m] [Host m] {ε : Type} : Host (ExceptT ε m) :=
  Host.lifted ExceptT.lift

structure World where
  tree : FileTree
  here : Path := []
  output : Text := []
  errors : Text := []

namespace World

/-- Replaces the content of a file that can be written. -/
def putFile (name : Text) (change : Bytes → Bytes) : StateM World (Except FileError Path) :=
  fun w => match w.tree.target w.here name with
    | .error e => (.error e, w)
    | .ok p => (.ok p, { w with tree := w.tree.put p (.file (change (w.tree.contentAt p))) })

instance : Host (StateM World) where
  Place := Path
  Sink := Path
  readFile name := return (← get).tree.readFile (← get).here name
  writeFile name content := return (← putFile name fun _ => content).map fun _ => ()
  isFile name := do
    let w ← get
    return (w.tree.readFile w.here name).toBool
  openSink name := putFile name id
  addTo p content :=
    modify fun w => { w with tree := w.tree.put p (.file (w.tree.contentAt p ++ content)) }
  absolute name := return Path.absolute (← get).here name
  place := return (← get).here
  enter name := fun w => match w.tree.directory w.here name with
    | .error e => (.error e, w)
    | .ok p => (.ok (), { w with here := p })
  goBack p := modify fun w => { w with here := p }
  write t := modify fun w => { w with output := w.output ++ t }
  complain t := modify fun w => { w with errors := w.errors ++ t }
  uptime := return "0"

end World

end ElfScope
