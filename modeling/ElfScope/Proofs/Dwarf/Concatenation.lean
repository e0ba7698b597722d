import Mathlib
import ElfScope.Proofs.Dwarf.Ending
import ElfScope.Proofs.Dwarf.Lengthened
import ElfScope.Proofs.Dwarf.ShiftedWalk

/-! # Sections one after the other

Where units fill a section and the entries of each are met to their end, bytes after them add symbols
and change none of theirs. What is added is what the bytes have as a section of their own.
-/
namespace ElfScope.Dwarf

/-- Other debug information, with the same sections around it. -/
def DebugSections.withInfo (s : DebugSections) (b : Bytes) : DebugSections := { s with info := b }

namespace CompileUnit
variable {s : DebugSections} {u : CompileUnit} {us : List CompileUnit} {a : Bytes} {o : Nat}

/-! ### Units -/

theorem at?_extend (h : at? s o = some u) (b : Bytes) : at? (s.extend b) o = some u := by
  obtain ⟨front, rest, hfront, hne, hstart, hreads⟩ := at?_local h
  have hread : UnitHeader.decoder.runAt (s.extend b).info o = .ok (u.header, rest ++ b) := by
    unfold Decoder.runAt
    rw [drop_extend hfront hne]
    exact hreads _
  have hlength := congrArg List.length hfront
  have hpos := List.length_pos_iff.mpr hne
  rw [List.length_drop, List.length_append] at hlength
  have hrest : (s.extend b).info.length - (rest ++ b).length = u.start := by
    change (s.info ++ b).length - _ = _
    rw [List.length_append, List.length_append]
    omega
  unfold at? at h ⊢
  split at h
  · cases h
  · rw [hread]
    simp only [hrest]
    cases h
    rfl

theorem at?_prepend (o : Nat) :
    at? (s.prepend a) (o + a.length) = (at? s o).map (·.shift a.length) := by
  cases hu : at? s o with
  | none =>
    unfold at? Decoder.runAt at hu ⊢
    rw [drop_prepend]
    split at hu
    · rfl
    · cases hu
  | some u =>
    obtain ⟨front, rest, hfront, -, -, hreads⟩ := at?_local hu
    have hlength := congrArg List.length hfront
    rw [List.length_drop, List.length_append] at hlength
    unfold at? Decoder.runAt at hu ⊢
    rw [drop_prepend]
    rw [hfront, hreads rest] at hu ⊢
    rw [← Option.some.inj hu]
    have hstart : (s.prepend a).info.length - rest.length =
        s.info.length - rest.length + a.length := by
      change (a ++ s.info).length - _ = _
      rw [List.length_append]
      omega
    simp only [hstart]
    rfl

theorem lt_of_at? (h : at? s o = some u) : o < s.info.length := by
  obtain ⟨front, rest, hfront, hne, -, -⟩ := at?_local h
  have hlength := congrArg List.length hfront
  have hpos := List.length_pos_iff.mpr hne
  rw [List.length_drop, List.length_append] at hlength
  omega

theorem lt_next (h : at? s o = some u) : o < u.next := by
  have ho := at?_offset h
  unfold next
  split_ifs <;> omega

theorem next_shift (k : Nat) (u : CompileUnit) : (u.shift k).next = u.next + k := by
  change u.offset + k + u.header.length + (if u.encoding.wide then 12 else 4) = _
  unfold next
  omega

theorem listFrom_fuel {fuel fuel' : Nat} (h : s.info.length < o + fuel)
    (h' : s.info.length < o + fuel') : listFrom s fuel o = listFrom s fuel' o := by
  induction fuel generalizing fuel' o with
  | zero =>
    cases fuel' with
    | zero => rfl
    | succ fuel' => rw [listFrom, listFrom, if_pos (by omega)]
  | succ fuel ih =>
    cases fuel' with
    | zero => rw [listFrom, listFrom, if_pos (by omega)]
    | succ fuel' =>
      rw [listFrom, listFrom]
      cases hu : at? s o with
      | none => rfl
      | some u =>
        have hlt := lt_next hu
        simp only [@ih u.next fuel' (by omega) (by omega)]

theorem listFrom_prepend (fuel o : Nat) : listFrom (s.prepend a) fuel (o + a.length) =
    ((listFrom s fuel o).1.map (·.shift a.length), (listFrom s fuel o).2) := by
  induction fuel generalizing o with
  | zero => rfl
  | succ fuel ih =>
    have hend : (s.prepend a).info.length ≤ o + a.length ↔ s.info.length ≤ o := by
      change (a ++ s.info).length ≤ _ ↔ _
      rw [List.length_append]
      omega
    rw [listFrom, listFrom, at?_prepend]
    simp only [hend]
    split_ifs
    · rfl
    · cases at? s o with
      | none => rfl
      | some u =>
        simp only [Option.map_some, next_shift, ih, List.map_cons]

/-- From an offset on units fill the section: each ends where the next one starts. -/
inductive Tiles (s : DebugSections) : Nat → List CompileUnit → Prop where
  | nil : Tiles s s.info.length []
  | cons {o : Nat} {u : CompileUnit} {us : List CompileUnit} (hu : at? s o = some u)
    (hrest : Tiles s u.next us) : Tiles s o (u :: us)

namespace Tiles

theorem lt (h : Tiles s o us) : ∀ u ∈ us, u.offset < s.info.length := by
  induction h with
  | nil => simp
  | cons hu _ ih =>
    refine List.forall_mem_cons.mpr ⟨?_, ih⟩
    rw [at?_offset hu]
    exact lt_of_at? hu

theorem listFrom_extend (h : Tiles s o us) (b : Bytes) {fuel : Nat}
    (hfuel : (s.extend b).info.length < o + fuel) : listFrom (s.extend b) fuel o =
      (us ++ (units (s.withInfo b)).map (·.shift s.info.length), (list (s.withInfo b)).2) := by
  have hlength : (s.extend b).info.length = s.info.length + b.length := List.length_append
  induction h generalizing fuel with
  | nil =>
    have hprepend := @listFrom_prepend (s.withInfo b) s.info fuel 0
    rw [Nat.zero_add] at hprepend
    have hall : listFrom (s.withInfo b) fuel 0 = list (s.withInfo b) :=
      listFrom_fuel (by change b.length < _; omega) (by omega)
    rw [hall] at hprepend
    exact hprepend
  | @cons o u us hu _ ih =>
    have hlt := lt_of_at? hu
    have hnext := lt_next hu
    obtain ⟨fuel, rfl⟩ : ∃ n, fuel = n + 1 := ⟨fuel - 1, by omega⟩
    rw [listFrom, if_neg (by omega), at?_extend hu b]
    simp only [@ih fuel (by omega)]
    rfl

/-- Bytes after the units have the units that they have on their own, further on, and end the
enumeration as they do on their own. -/
theorem list_extend (h : Tiles s 0 us) (b : Bytes) : list (s.extend b) =
    (us ++ (units (s.withInfo b)).map (·.shift s.info.length), (list (s.withInfo b)).2) :=
  h.listFrom_extend b (by omega)

theorem units_extend (h : Tiles s 0 us) (b : Bytes) :
    units (s.extend b) = us ++ (units (s.withInfo b)).map (·.shift s.info.length) :=
  congrArg Prod.fst (h.list_extend b)

theorem units_eq (h : Tiles s 0 us) : units s = us := by
  have hall := h.units_extend []
  have hsame : s.extend [] = s := by
    unfold DebugSections.extend
    rw [List.append_nil]
  rw [hsame] at hall
  exact hall.trans (List.append_nil us)

/-- A section that is one unit, as far as runs of it tell. -/
theorem exists_single (hsome : (at? s 0).isSome)
    (hruns : ∀ u ∈ at? s 0, u.next = s.info.length ∧
      (Walk.alone (Walk.entries s u)).map Prod.snd = some false ∧
      ∀ d ∈ ((outcome (Walk.entries s u) {}).2.memory u).entries, u.start ≤ d.offset) :
    ∃ u, Tiles s 0 [u] ∧ u.Whole s := by
  obtain ⟨u, hu⟩ := Option.isSome_iff_exists.mp hsome
  obtain ⟨hnext, hends, hfirst⟩ := hruns u hu
  refine ⟨u, .cons hu (hnext ▸ .nil), ?_, hfirst⟩
  unfold Walk.alone at hends
  rcases hr : (outcome (Walk.entries s u) {}).1 with e | ⟨vs, stopped⟩ <;>
    rw [hr] at hends <;> cases hends
  exact ⟨vs, rfl⟩

end Tiles

end CompileUnit

/-! ### Walks one after the other -/

namespace Walk
variable {s : DebugSections}

open CompileUnit Growth

/-- What has been kept of the units before some bytes is not that of a unit of theirs. -/
theorem Passed.moved {us : List CompileUnit} {added : List Symbols} {desk : Desk}
    (h : Passed us added {} desk) {k : Nat} (hk : ∀ u ∈ us, u.offset < k) :
    Desk.Moved k (Symbols.concat added) {} desk := by
  refine ⟨fun o => ?_, fun o j => ?_, ?_⟩
  · refine h.memories _ fun u hu => ?_
    have hlt := hk u hu
    omega
  · refine List.lookup_eq_none_iff.mpr fun p hp => ?_
    rcases h.types p hp with hp | ⟨u, hu, hpu⟩
    · cases hp
    · have hlt := hk u hu
      have hne : (o + k, j) ≠ p.1 := by
        rintro hkey
        rw [← hkey] at hpu
        change o + k = u.offset at hpu
        omega
      simpa using hne
  · rw [h.found, Symbols.empty_append]
    exact (Symbols.append_empty _).symm

/-- Units whose entries are met to their end add the same symbols with other bytes after them. -/
theorem exists_passed {us : List CompileUnit} (hus : Tiles s 0 us) (hwhole : ∀ u ∈ us, u.Whole s)
    (b : Bytes) : ∃ added desk desk',
      outcome (us.forM (walkUnit s)) {} = (.ok (), desk) ∧ Passed us added {} desk ∧
      outcome (us.forM (walkUnit (s.extend b))) {} = (.ok (), desk') ∧ Passed us added {} desk' := by
  have hdistinct : us.Pairwise (·.offset ≠ ·.offset) := hus.units_eq ▸ (pairwise_listFrom s _ 0).2
  have hfresh : ∀ u ∈ us, Desk.Fresh u {} := fun u _ => fresh_empty u
  obtain ⟨added, hadded⟩ := exists_forall₂ fun u hu => (hwhole u hu).addedByUnit b
  obtain ⟨desk, hrun, hpassed⟩ := passed_forM hdistinct hfresh (hadded.imp fun _ _ h => h.1)
  obtain ⟨desk', hrun', hpassed'⟩ := passed_forM hdistinct hfresh (hadded.imp fun _ _ h => h.2)
  exact ⟨added, desk, desk', hrun, hpassed, hrun', hpassed'⟩

/-- Once some units are through, the walk goes on with the others, and keeps what has been found. -/
theorem run_after {us ws : List CompileUnit} {desk : Desk} (hunits : CompileUnit.units s = us ++ ws)
    (hrun : outcome (us.forM (walkUnit s)) {} = (.ok (), desk)) :
    (outcome (run (some s)) {}).1 = (outcome (ws.forM (walkUnit s)) desk).1.map (fun _ =>
        (outcome (ws.forM (walkUnit s)) desk).2.found) ∧
      ∀ all, (outcome (run (some s)) {}).1 = .ok all → ∃ more, all = desk.found ++ more := by
  have hall := (outcome_run_units s).1
  have hforM : outcome ((us ++ ws).forM (walkUnit s)) {} = outcome (ws.forM (walkUnit s)) desk := by
    have happend : (us ++ ws).forM (walkUnit s) =
        us.forM (walkUnit s) >>= fun _ => ws.forM (walkUnit s) := List.forM_append
    rw [happend, outcome_bind, hrun]
  rw [hunits, hforM] at hall
  refine ⟨hall, fun all hok => ?_⟩
  have hsub : us ⊆ CompileUnit.units s ∧ ws ⊆ CompileUnit.units s := by
    rw [hunits]
    exact ⟨List.subset_append_left us ws, List.subset_append_right us ws⟩
  have hsound := (runs_forM_walkUnit (covers_all _) hsub.1).sound {} sound_empty trivial
  rw [hrun] at hsound
  obtain ⟨more, hmore⟩ :=
    ((runs_forM_walkUnit (covers_all _) hsub.2).grows desk hsound trivial).found
  rw [hall] at hok
  refine ⟨more, ?_⟩
  rw [← hmore]
  cases hr : (outcome (ws.forM (walkUnit s)) desk).1 <;> rw [hr] at hok <;> cases hok
  rfl

/-- Units do further on what they do in a section of their own. -/
theorem outcome_units_moved {a : Bytes} {before symbols : Symbols} {desk : Desk}
    (hmoved : Desk.Moved a.length before {} desk)
    (hrun : (outcome (run (some s)) {}).1 = .ok symbols)
    (hmovable : ∀ u ∈ CompileUnit.units s, ((outcome (run (some s)) {}).2.memory u).Movable) :
    ∃ last, outcome (((CompileUnit.units s).map (·.shift a.length)).forM (walkUnit (s.prepend a)))
      desk = (.ok (), last) ∧ last.found = before ++ symbols := by
  obtain ⟨hunits, hmemory⟩ := outcome_run_units s
  rw [hunits] at hrun
  have hagrees : (Pairing.ofDesk s a.length before).Agrees True
      ((CompileUnit.units s).forM (walkUnit s))
      (((CompileUnit.units s).map (·.shift a.length)).forM (walkUnit (s.prepend a))) id
      fun _ => True :=
    Pairing.agrees_forM fun u hu => Pairing.agrees_walkUnit (Pairing.decodes_prepend hu a)
  have hclean : (Pairing.ofDesk s a.length before).clean
      (outcome ((CompileUnit.units s).forM (walkUnit s)) {}).2 := by
    intro u hu
    rw [← hmemory u]
    exact hmovable u hu
  have hmove := hagrees.agrees trivial {} desk hmoved hclean
  rcases hr : outcome ((CompileUnit.units s).forM (walkUnit s)) {} with ⟨_ | _, desk₁⟩ <;>
    rw [hr] at hrun hmove <;> cases hrun
  obtain ⟨last, hlast, hlike, -⟩ := hmove (by simp)
  exact ⟨last, hlast, hlike.found⟩

/-- Some units fill a section, and the entries of each are met to their end. Then a walk of the section
ends. With other bytes after it, the symbols of the section come first. If the walk of these bytes
alone ends too and has met no sibling reference to an offset in the section, its symbols come after
them. -/
theorem run_extend {us : List CompileUnit} (hus : Tiles s 0 us) (hwhole : ∀ u ∈ us, u.Whole s)
    (b : Bytes) : ∃ symbols, (outcome (run (some s)) {}).1 = .ok symbols ∧
      (∀ all, (outcome (run (some (s.extend b))) {}).1 = .ok all → ∃ rest, all = symbols ++ rest) ∧
      ∀ rest, (outcome (run (some (s.withInfo b))) {}).1 = .ok rest →
        (∀ u ∈ CompileUnit.units (s.withInfo b),
          ((outcome (run (some (s.withInfo b))) {}).2.memory u).Movable) →
        (outcome (run (some (s.extend b))) {}).1 = .ok (symbols ++ rest) := by
  obtain ⟨added, desk, desk', hrun, hpassed, hrun', hpassed'⟩ := exists_passed hus hwhole b
  obtain ⟨hlonger, hmore⟩ := run_after (hus.units_extend b) hrun'
  have hfound : desk'.found = Symbols.concat added :=
    hpassed'.found.trans (Symbols.empty_append _)
  refine ⟨Symbols.concat added, ?_, fun all hall => ?_, fun rest hrest hmovable => ?_⟩
  · rw [(outcome_run_units s).1, hus.units_eq, hrun]
    exact congrArg Except.ok (hpassed.found.trans (Symbols.empty_append _))
  · exact hfound ▸ hmore all hall
  · obtain ⟨last, hlast, hsymbols⟩ :=
      outcome_units_moved (hpassed'.moved hus.lt) hrest hmovable
    have hlast' : outcome (((CompileUnit.units (s.withInfo b)).map (·.shift s.info.length)).forM
        (walkUnit (s.extend b))) desk' = (.ok (), last) := hlast
    rw [hlonger, hlast']
    exact congrArg Except.ok hsymbols

/-- After a unit come one whose block leads into its own subtree, and bytes that are no unit. -/
theorem linkedBlock_extend :
    ∃ symbols, (outcome (run (some (linkedBlock 17 21))) {}).1 = .ok symbols ∧
      (outcome (run (some ((linkedBlock 17 21).extend ((linkedBlock 17 17).info ++ [1, 2])))) {}).1 =
        .ok (symbols ++ { globals := List.replicate 2 ⟨"x", none, none, .void, .global⟩ }) := by
  obtain ⟨u, hus, hwhole⟩ := @Tiles.exists_single (linkedBlock 17 21) (by decide +kernel)
    (by decide +kernel)
  obtain ⟨symbols, hrun, -, hafter⟩ := run_extend hus (fun w hw => List.mem_singleton.mp hw ▸ hwhole)
    ((linkedBlock 17 17).info ++ [1, 2])
  exact ⟨symbols, hrun, hafter _ (by cbv) (by decide +kernel)⟩

end Walk

end ElfScope.Dwarf
