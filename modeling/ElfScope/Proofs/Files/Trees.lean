import Mathlib
import ElfScope.Files.Host

/-! # Trees that files are written in

Writing a file changes one place and no directory. A name that leads somewhere leads there still as long
as no directory is gone. Only a name that is none is refused without an error of the file system.
-/
namespace ElfScope

namespace FileTree
variable {t t' : FileTree} {here p : Path} {name : Text}

theorem any_eq_isSome_lookup (nodes : List (Path × Node)) (p : Path) :
    nodes.any (·.1 = p) = (nodes.lookup p).isSome := by
  induction nodes with
  | nil => rfl
  | cons x nodes ih =>
    rw [List.any_cons, List.lookup_cons, ih]
    by_cases hx : x.1 = p
    · simp [hx]
    · have hne : (p == x.1) = false := beq_false_of_ne (Ne.symm hx)
      simp [hx, hne]

theorem lookup_replace (nodes : List (Path × Node)) (p q : Path) (n : Node) :
    (nodes.map fun x => (x.1, if x.1 = p then n else x.2)).lookup q =
      (nodes.lookup q).map fun old => if q = p then n else old := by
  induction nodes with
  | nil => rfl
  | cons x nodes ih =>
    rw [List.map_cons, List.lookup_cons, List.lookup_cons]
    by_cases hq : q = x.1
    · rw [hq, beq_self_eq_true]
      rfl
    · rw [beq_false_of_ne hq]
      exact ih

theorem lookup_put (t : FileTree) (p q : Path) (n : Node) :
    (t.put p n).nodes.lookup q = if q = p then some n else t.nodes.lookup q := by
  have hreplaced := lookup_replace t.nodes p q n
  unfold put
  rw [any_eq_isSome_lookup]
  cases hold : t.nodes.lookup p with
  | some old =>
    simp only [Option.isSome_some, if_true]
    refine hreplaced.trans ?_
    by_cases hq : q = p
    · simp [hq, hold]
    · simp [hq]
  | none =>
    simp only [Option.isSome_none, Bool.false_eq_true, if_false, List.lookup_append]
    by_cases hq : q = p
    · simp [hq, hold]
    · have hother : List.lookup q [(p, n)] = none := by
        rw [List.lookup_cons, beq_false_of_ne hq, List.lookup_nil]
      rw [hother, Option.or_none, if_neg hq]

/-- A node is put at one place, which is not the root. -/
theorem node?_put (t : FileTree) (p q : Path) (n : Node) :
    (t.put p n).node? q = if q = p ∧ p ≠ [] then some n else t.node? q := by
  unfold node?
  rw [lookup_put]
  by_cases hroot : q = []
  · subst hroot
    have hp : ¬([] = p ∧ p ≠ []) := fun h => h.2 h.1.symm
    rw [if_neg hp]
    rfl
  · have hq : ¬q.isEmpty = true := fun h => hroot (List.isEmpty_iff.mp h)
    rw [if_neg hq, if_neg hq]
    by_cases hp : q = p
    · rw [if_pos hp, if_pos ⟨hp, hp ▸ hroot⟩]
    · rw [if_neg hp, if_neg fun h => hp h.1]

/-! ### Names -/

theorem descend_mono (h : ∀ p, t.node? p = some .directory → t'.node? p = some .directory)
    {parts : List Text} (hp : t.descend here parts = .ok p) : t'.descend here parts = .ok p := by
  induction parts generalizing here with
  | nil => exact hp
  | cons part rest ih =>
    rw [descend] at hp ⊢
    cases hnode : t.node? here with
    | none =>
      rw [hnode] at hp
      cases hp
    | some node =>
      cases node with
      | file content =>
        rw [hnode] at hp
        cases hp
      | directory =>
        rw [hnode] at hp
        rw [h here hnode]
        simp only at hp ⊢
        split_ifs at hp ⊢
        · exact ih hp
        · exact ih hp
        · exact ih hp

theorem resolve_of_refused {e : FileError} (h : Path.checkName name = .error e) :
    t.resolve here name = .error e := by
  unfold resolve
  rw [h]
  rfl

theorem resolve_of_checked (h : Path.checkName name = .ok ()) : t.resolve here name =
    if name.isEmpty then .error .noSuchFile
    else if 4096 ≤ (Utf8.encode name).length then .error .nameTooLong
    else t.descend (if Path.isAbsolute name then [] else here) (Path.parts name) := by
  unfold resolve
  rw [h]
  by_cases hempty : name.isEmpty
  · rw [if_pos hempty, if_pos hempty]
    rfl
  · by_cases hlong : 4096 ≤ (Utf8.encode name).length
    · rw [if_neg hempty, if_neg hempty, if_pos hlong, if_pos hlong]
      rfl
    · rw [if_neg hempty, if_neg hempty, if_neg hlong, if_neg hlong]
      rfl

/-- A name that leads somewhere leads there as long as the directories are there. -/
theorem resolve_mono (h : ∀ p, t.node? p = some .directory → t'.node? p = some .directory)
    (hp : t.resolve here name = .ok p) : t'.resolve here name = .ok p := by
  cases hname : Path.checkName name with
  | error e =>
    rw [resolve_of_refused hname] at hp
    cases hp
  | ok _ =>
    rw [resolve_of_checked hname] at hp ⊢
    split_ifs at hp ⊢
    · exact descend_mono h hp
    · exact descend_mono h hp

theorem target_of_resolve {q : Path} (h : t.resolve here name = .ok q) : t.target here name =
    if Path.wantsDirectory name = true ∨ t.node? q = some .directory then .error .isADirectory
    else .ok q := by
  unfold target
  rw [h]
  cases Path.wantsDirectory name with
  | true => rfl
  | false =>
    rcases hnode : t.node? q with _ | content | _
    · simp [hnode, bind, Except.bind, pure, Except.pure]
    · simp [hnode, bind, Except.bind, pure, Except.pure]
    · simp [hnode, bind, Except.bind, throw, throwThe, MonadExceptOf.throw]

/-- A file can be written where no directory is. -/
theorem target_eq_ok : t.target here name = .ok p ↔
    t.resolve here name = .ok p ∧ Path.wantsDirectory name = false ∧
      t.node? p ≠ some .directory := by
  cases hresolve : t.resolve here name with
  | error e => simp [target, hresolve, bind, Except.bind]
  | ok q =>
    rw [target_of_resolve hresolve]
    split_ifs with h
    · constructor
      · intro h'
        cases h'
      · rintro ⟨hp, hwants, hnode⟩
        cases hp
        simp [hwants, hnode] at h
    · rw [not_or, Bool.not_eq_true] at h
      constructor
      · intro hp
        cases hp
        exact ⟨rfl, h⟩
      · exact fun hp => hp.1

theorem directory_eq_ok : t.directory here name = .ok p ↔
    t.resolve here name = .ok p ∧ t.node? p = some .directory := by
  cases hresolve : t.resolve here name with
  | error e => simp [directory, hresolve, bind, Except.bind]
  | ok q =>
    rcases hnode : t.node? q with _ | content | _
    all_goals
      simp only [directory, hresolve, hnode, bind, Except.bind, throw, throwThe,
        MonadExceptOf.throw, pure, Except.pure, Except.ok.injEq]
      constructor
    · intro h
      cases h
    · rintro ⟨rfl, hp⟩
      cases hnode.symm.trans hp
    · intro h
      cases h
    · rintro ⟨rfl, hp⟩
      cases hnode.symm.trans hp
    · rintro rfl
      exact ⟨rfl, hnode⟩
    · exact fun h => h.1

/-! ### Refusals -/

theorem isSome_system?_of_descend {e : FileError} {parts : List Text}
    (h : t.descend here parts = .error e) : e.system?.isSome := by
  induction parts generalizing here with
  | nil => cases h
  | cons part rest ih =>
    rw [descend] at h
    cases hnode : t.node? here with
    | none =>
      rw [hnode] at h
      cases h
      rfl
    | some node =>
      rw [hnode] at h
      cases node with
      | file content =>
        cases h
        rfl
      | directory =>
        simp only at h
        split_ifs at h
        · exact ih h
        · exact ih h
        · cases h
          rfl
        · exact ih h

theorem isSome_system?_of_resolve {e : FileError} (hname : Path.checkName name = .ok ())
    (h : t.resolve here name = .error e) : e.system?.isSome := by
  rw [resolve_of_checked hname] at h
  split_ifs at h with hempty hlong
  · cases h
    rfl
  · cases h
    rfl
  all_goals exact isSome_system?_of_descend h

/-- The file system has a reason of its own for each name that it does not take. -/
theorem isSome_system?_of_readFile {e : FileError} (hname : Path.checkName name = .ok ())
    (h : t.readFile here name = .error e) : e.system?.isSome := by
  cases hresolve : t.resolve here name with
  | error cause =>
    unfold readFile at h
    rw [hresolve] at h
    cases h
    exact isSome_system?_of_resolve hname hresolve
  | ok p =>
    simp only [readFile, hresolve, bind, Except.bind] at h
    split at h
    · cases h
      rfl
    · cases h
      rfl
    · split_ifs at h
      · cases h
        rfl
      · cases h

theorem system?_of_checkName {e : FileError} (h : Path.checkName name = .error e) :
    e.system? = none := by
  unfold Path.checkName at h
  split at h
  · cases h
    rfl
  · split_ifs at h
    · cases h
      rfl
    · cases h

theorem readFile_of_checkName {e : FileError} (h : Path.checkName name = .error e) :
    t.readFile here name = .error e ∧ e.system? = none := by
  constructor
  · unfold readFile
    rw [resolve_of_refused h]
    rfl
  · exact system?_of_checkName h

/-! ### Logs -/

/-- Nothing was written but the log, and that at its end. -/
structure Grows (log : Option Path) (t t' : FileTree) : Prop where
  others : ∀ p, log ≠ some p → t'.node? p = t.node? p
  directories : ∀ p, t'.node? p = some .directory ↔ t.node? p = some .directory
  content : ∀ p, t.contentAt p <+: t'.contentAt p

namespace Grows
variable {log : Option Path} {last : FileTree}

theorem refl (log : Option Path) (t : FileTree) : Grows log t t where
  others _ _ := rfl
  directories _ := Iff.rfl
  content _ := List.prefix_rfl

theorem trans (h : Grows log t t') (hnext : Grows log t' last) : Grows log t last where
  others p hp := (hnext.others p hp).trans (h.others p hp)
  directories p := (hnext.directories p).trans (h.directories p)
  content p := (h.content p).trans (hnext.content p)

theorem put (hp : t.node? p ≠ some .directory) (added : Bytes) :
    Grows (some p) t (t.put p (.file (t.contentAt p ++ added))) := by
  have hput (q : Path) (hq : q ≠ p) : (t.put p (.file (t.contentAt p ++ added))).node? q = t.node? q := by
    rw [node?_put, if_neg fun h => hq h.1]
  have hroot : p ≠ [] := by
    rintro rfl
    exact hp rfl
  have hself : (t.put p (.file (t.contentAt p ++ added))).node? p =
      some (.file (t.contentAt p ++ added)) := by
    rw [node?_put, if_pos ⟨rfl, hroot⟩]
  constructor
  · intro q hq
    exact hput q fun h => hq (congrArg some h.symm)
  · intro q
    by_cases hq : q = p
    · subst hq
      rw [hself]
      constructor
      · intro h
        cases h
      · exact fun h => absurd h hp
    · rw [hput q hq]
  · intro q
    by_cases hq : q = p
    · subst hq
      have hcontent : (t.put q (.file (t.contentAt q ++ added))).contentAt q =
          t.contentAt q ++ added := by
        rw [contentAt, hself]
      rw [hcontent]
      exact List.prefix_append _ _
    · rw [contentAt, contentAt, hput q hq]

theorem resolve (h : Grows log t t') (hp : t.resolve here name = .ok p) :
    t'.resolve here name = .ok p :=
  resolve_mono (fun q => (h.directories q).mpr) hp

theorem target (h : Grows log t t') (hp : t.target here name = .ok p) :
    t'.target here name = .ok p := by
  rw [target_eq_ok] at hp ⊢
  obtain ⟨hresolve, hwants, hnode⟩ := hp
  exact ⟨h.resolve hresolve, hwants, fun hp => hnode ((h.directories p).mp hp)⟩

theorem map_target {name : Option Text} {output : Option Path} (h : Grows log t t')
    (hout : name.map (t.target here) = output.map .ok) :
    name.map (t'.target here) = output.map .ok := by
  cases name with
  | none => exact hout
  | some name =>
    cases output with
    | none => cases hout
    | some p =>
      have htarget := h.target (Option.some.inj hout)
      rw [Option.map_some, Option.map_some, htarget]

theorem directory (h : Grows log t t') (hp : t.directory here name = .ok p) :
    t'.directory here name = .ok p := by
  rw [directory_eq_ok] at hp ⊢
  exact ⟨h.resolve hp.1, (h.directories p).mpr hp.2⟩

/-- A file is read as before, unless it is the log. -/
theorem readFile (h : Grows log t t') (hp : t.resolve here name = .ok p) (hlog : log ≠ some p) :
    t'.readFile here name = t.readFile here name := by
  unfold FileTree.readFile
  rw [h.resolve hp, hp]
  simp only [bind, Except.bind, h.others p hlog]

end Grows

end FileTree

end ElfScope
