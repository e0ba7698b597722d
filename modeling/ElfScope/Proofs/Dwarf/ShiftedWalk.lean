import Mathlib
import ElfScope.Proofs.Dwarf.SideBySide

/-! # Walks of sections that start later

The units of a section that starts later add the same symbols, after those that have been found before
them. What is kept of units before the section is not looked at.
-/
namespace ElfScope.Dwarf

open CompileUnit

/-- What a walk keeps of units that stand so many bytes further on, with symbols that were found before
them. -/
structure Desk.Moved (k : Nat) (before : Symbols) (desk desk' : Desk) : Prop where
  memories : ∀ o, desk'.memories.lookup (o + k) = (desk.memories.lookup o).map (·.shift k)
  types : ∀ o j, desk'.types.lookup (o + k, j) = desk.types.lookup (o, j)
  found : desk'.found = before ++ desk.found

namespace Desk.Moved
variable {k : Nat} {before : Symbols} {desk desk' : Desk}

theorem memory (h : Moved k before desk desk') (u : CompileUnit) :
    desk'.memory (u.shift k) = (desk.memory u).shift k := by
  have hlookup := h.memories u.offset
  change (desk'.memories.lookup (u.offset + k)).getD {} = _
  unfold Desk.memory
  rw [hlookup]
  cases desk.memories.lookup u.offset <;> rfl

theorem remember (h : Moved k before desk desk') (u : CompileUnit) (m : Memory) :
    Moved k before (desk.remember u m) (desk'.remember (u.shift k) (m.shift k)) := by
  refine ⟨fun o => ?_, h.types, h.found⟩
  change List.lookup (o + k) ((u.offset + k, m.shift k) ::
    desk'.memories.filter (·.1 ≠ u.offset + k)) = _
  unfold Desk.remember
  by_cases ho : o = u.offset
  · subst ho
    simp
  · have hne : (o == u.offset) = false := by simpa using ho
    have hne' : (o + k == u.offset + k) = false := by simpa using ho
    rw [List.lookup_cons, List.lookup_cons, hne, hne']
    have hfar : o + k ≠ u.offset + k := by omega
    have hfilter := Desk.lookup_filter_ne hfar desk'.memories
    exact hfilter.trans ((h.memories o).trans
      (congrArg _ (Desk.lookup_filter_ne ho desk.memories).symm))

theorem cache (h : Moved k before desk desk') (o : Nat) (j : Int) (info : TypeInfo) :
    Moved k before { desk with types := desk.types ++ [((o, j), info)] }
      { desk' with types := desk'.types ++ [((o + k, j), info)] } := by
  refine ⟨h.memories, fun o' j' => ?_, h.found⟩
  have hkey : ((o' + k, j') == (o + k, j)) = ((o', j') == (o, j)) := by
    rw [Bool.eq_iff_iff]
    simp
  simp only [List.lookup_append, h.types, List.lookup_cons, hkey, List.lookup_nil]

theorem alike {desk₁ desk₁' : Desk} (h : Moved k before desk desk') (ha : Desk.Alike desk desk₁)
    (ha' : Desk.Alike desk' desk₁') : Moved k before desk₁ desk₁' := by
  refine ⟨?_, ?_, ?_⟩
  · rw [ha.memories, ha'.memories]
    exact h.memories
  · rw [ha.types, ha'.types]
    exact h.types
  · rw [ha.found, ha'.found]
    exact h.found

theorem add (h : Moved k before desk desk') (more : Symbols) :
    Moved k before { desk with found := desk.found ++ more }
      { desk' with found := desk'.found ++ more } := by
  refine ⟨h.memories, h.types, ?_⟩
  rw [h.found, Symbols.append_assoc]

end Desk.Moved

namespace Pairing

/-- Desks with the same entries of a section's units, so many bytes further on. -/
def ofDesk (s : DebugSections) (k : Nat) (before : Symbols) : Pairing Desk where
  clean desk := ∀ u ∈ units s, (desk.memory u).Movable
  like := Desk.Moved k before

variable {s : DebugSections} {k : Nat} {before : Symbols}

theorem aligned_ofDesk : (ofDesk s k before).Aligned k where
  clean hc hsame u hu := by
    have hmemory := hc u hu
    rwa [Desk.memory, hsame] at hmemory
  alike := Desk.Moved.alike
  add := Desk.Moved.add
  lookup := Desk.Moved.types
  cache := Desk.Moved.cache

theorem Agrees.inUnit {p : Prop} {α α' : Type} {f : α → α'} {Q : α → Prop} {u : CompileUnit}
    (hu : u ∈ units s) {act : Reading α} {act' : Reading α'}
    (h : (ofMemory k).Agrees p act act' f Q) :
    (ofDesk s k before).Agrees p (Walk.inUnit u act) (Walk.inUnit (u.shift k) act') f Q := by
  constructor
  · intro desk hc
    exact @forall_memory_of_inUnit s u (fun _ => Memory.Movable) hu _ _ h.clean desk hc
  · intro hp desk desk' hl hc hne
    have hmemory := hc u hu
    rw [Walk.outcome_inUnit] at hne ⊢
    rw [Walk.outcome_inUnit, Desk.memory_remember] at hmemory
    obtain ⟨m', hrun, hm', hgives⟩ := h.agrees hp _ _ (hl.memory u) hmemory hne
    cases (show m' = _ from hm')
    rw [Walk.outcome_inUnit, hrun]
    exact ⟨_, rfl, hl.remember u _, hgives⟩

/-- The entries of a unit are decoded alike wherever it stands. -/
theorem decodes_prepend {u : CompileUnit} (hu : u ∈ units s) (a : Bytes) :
    (ofDesk s a.length before).Decodes a.length s (s.prepend a) u Cursor.Movable where
  toAligned := aligned_ofDesk
  limit := pathLimit_le_prepend s a
  first _ := trivial
  topDie := agrees_topDie.inUnit hu
  advance c := (agrees_advance c).inUnit hu

end Pairing

end ElfScope.Dwarf
