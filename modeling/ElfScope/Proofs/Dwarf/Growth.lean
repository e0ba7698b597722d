import Mathlib
import ElfScope.Proofs.Dwarf.Outline
import ElfScope.Proofs.Dwarf.UnitWalk

/-! # What is decoded is kept

No step of a walk drops an entry that was decoded or a symbol that was found, and every entry that is
kept has the outline that its unit has at its offset. So what a step tells of the entries it has met
still holds at the end.
-/
namespace ElfScope.Dwarf

/-- A property that every step keeps, and an order that every step goes up in. -/
structure Growth (σ : Type) where
  sound : σ → Prop
  le : σ → σ → Prop
  refl : ∀ st, le st st
  trans : ∀ {a b c}, le a b → le b c → le a c

namespace Growth
variable {σ α β : Type} (g : Growth σ)

def Lasting (P : σ → Prop) : Prop := ∀ st st', g.le st st' → P st → P st'

/-- From a sound state in which something holds an action leads up to a sound one, and tells something
of it: with its value, or by having no end. -/
structure Runs (P : σ → Prop) (act : EStateM Failure σ α) (Q : α → σ → Prop) (N : σ → Prop) :
    Prop where
  sound : ∀ st, g.sound st → P st → g.sound (outcome act st).2
  grows : ∀ st, g.sound st → P st → g.le st (outcome act st).2
  gives : ∀ st, g.sound st → P st → ∀ a, (outcome act st).1 = .ok a → Q a (outcome act st).2
  endless : ∀ st, g.sound st → P st → (outcome act st).1 = .error .endless → N (outcome act st).2

variable {g} {P : σ → Prop} {Q : α → σ → Prop} {R : β → σ → Prop} {N : σ → Prop}

theorem lasting_const (p : Prop) : g.Lasting fun _ => p := fun _ _ _ h => h

theorem Lasting.and {P' : σ → Prop} (h : g.Lasting P) (h' : g.Lasting P') :
    g.Lasting fun st => P st ∧ P' st :=
  fun st st' hle hp => ⟨h st st' hle hp.1, h' st st' hle hp.2⟩

theorem Lasting.or {P' : σ → Prop} (h : g.Lasting P) (h' : g.Lasting P') :
    g.Lasting fun st => P st ∨ P' st :=
  fun st st' hle hp => hp.imp (h st st' hle) (h' st st' hle)

theorem runs_pure {a : α} (h : ∀ st, g.sound st → P st → Q a st) : g.Runs P (pure a) Q N where
  sound _ hst _ := hst
  grows st _ _ := g.refl st
  gives st hst hp b hb := by
    cases hb
    exact h st hst hp
  endless _ _ _ h := by cases h

theorem runs_throw {e : Failure} (h : e = .endless → ∀ st, g.sound st → P st → N st) :
    g.Runs P (throw e : EStateM Failure σ α) Q N where
  sound _ hst _ := hst
  grows st _ _ := g.refl st
  gives _ _ _ _ h := by cases h
  endless st hst hp he := by
    cases he
    exact h rfl st hst hp

theorem runs_undecodable : g.Runs P (throw .undecodable : EStateM Failure σ α) Q N :=
  runs_throw fun h => by cases h

theorem Runs.mono {act : EStateM Failure σ α} {P' : σ → Prop} {Q' : α → σ → Prop} {N' : σ → Prop}
    (h : g.Runs P act Q N) (hP : ∀ st, g.sound st → P' st → P st)
    (hQ : ∀ a st, g.sound st → Q a st → Q' a st) (hN : ∀ st, g.sound st → N st → N' st) :
    g.Runs P' act Q' N' where
  sound st hst hp := h.sound st hst (hP st hst hp)
  grows st hst hp := h.grows st hst (hP st hst hp)
  gives st hst hp a ha :=
    hQ a _ (h.sound st hst (hP st hst hp)) (h.gives st hst (hP st hst hp) a ha)
  endless st hst hp he :=
    hN _ (h.sound st hst (hP st hst hp)) (h.endless st hst (hP st hst hp) he)

/-- Nothing has to be known before. -/
theorem Runs.always {act : EStateM Failure σ α} (h : g.Runs (fun _ => True) act Q N) :
    g.Runs P act Q N :=
  h.mono (fun _ _ _ => trivial) (fun _ _ _ => id) fun _ _ => id

/-- What was known before is still known after. -/
theorem Runs.keep {act : EStateM Failure σ α} (hP : g.Lasting P) (h : g.Runs P act Q N) :
    g.Runs P act (fun a st => P st ∧ Q a st) (fun st => P st ∧ N st) where
  sound := h.sound
  grows := h.grows
  gives st hst hp a ha := ⟨hP _ _ (h.grows st hst hp) hp, h.gives st hst hp a ha⟩
  endless st hst hp he := ⟨hP _ _ (h.grows st hst hp) hp, h.endless st hst hp he⟩

/-- What follows from what is known before is known all along. -/
theorem Runs.assume {act : EStateM Failure σ α} {p : Prop} (hp : ∀ st, g.sound st → P st → p)
    (h : p → g.Runs P act Q N) : g.Runs P act Q N where
  sound st hst hP := (h (hp st hst hP)).sound st hst hP
  grows st hst hP := (h (hp st hst hP)).grows st hst hP
  gives st hst hP := (h (hp st hst hP)).gives st hst hP
  endless st hst hP := (h (hp st hst hP)).endless st hst hP

/-- What is told of the first value is known when the second one is made. -/
theorem Runs.seq {act : EStateM Failure σ α} {f : α → EStateM Failure σ β} (ha : g.Runs P act Q N)
    (hf : ∀ a, g.Runs (Q a) (f a) R N) : g.Runs P (act >>= f) R N := by
  have hrun (st : σ) (hst : g.sound st) (hp : P st) :
      (∃ e, outcome (act >>= f) st = (.error e, (outcome act st).2) ∧
        (outcome act st).1 = .error e) ∨
      ∃ a, outcome (act >>= f) st = outcome (f a) (outcome act st).2 ∧
        g.sound (outcome act st).2 ∧ Q a (outcome act st).2 := by
    have hsound := ha.sound st hst hp
    have hgives := ha.gives st hst hp
    rw [outcome_bind]
    rcases hr : outcome act st with ⟨e | a, st'⟩
    · exact .inl ⟨e, rfl, rfl⟩
    · rw [hr] at hsound hgives
      exact .inr ⟨a, rfl, hsound, hgives a rfl⟩
  constructor
  · intro st hst hp
    rcases hrun st hst hp with ⟨e, h, -⟩ | ⟨a, h, hsound, hq⟩
    · rw [h]
      exact ha.sound st hst hp
    · rw [h]
      exact (hf a).sound _ hsound hq
  · intro st hst hp
    rcases hrun st hst hp with ⟨e, h, -⟩ | ⟨a, h, hsound, hq⟩
    · rw [h]
      exact ha.grows st hst hp
    · rw [h]
      exact g.trans (ha.grows st hst hp) ((hf a).grows _ hsound hq)
  · intro st hst hp b hb
    rcases hrun st hst hp with ⟨e, h, -⟩ | ⟨a, h, hsound, hq⟩
    · rw [h] at hb
      cases hb
    · rw [h] at hb ⊢
      exact (hf a).gives _ hsound hq b hb
  · intro st hst hp he
    rcases hrun st hst hp with ⟨e, h, hact⟩ | ⟨a, h, hsound, hq⟩
    · rw [h] at he ⊢
      cases he
      exact ha.endless st hst hp hact
    · rw [h] at he ⊢
      exact (hf a).endless _ hsound hq he

/-- What is known of the first value, and from before, still holds when the second one is there. -/
theorem Runs.bind {act : EStateM Failure σ α} {f : α → EStateM Failure σ β} (hP : g.Lasting P)
    (ha : g.Runs P act Q N) (hf : ∀ a, g.Runs (fun st => P st ∧ Q a st) (f a) R N) :
    g.Runs P (act >>= f) R N :=
  Runs.seq ((ha.keep hP).mono (fun _ _ => id) (fun _ _ _ => id) fun _ _ h => h.2) hf

/-- Nothing needs to be known of the first value. -/
theorem Runs.andThen {act : EStateM Failure σ α} {f : α → EStateM Failure σ β} (hP : g.Lasting P)
    (ha : g.Runs P act Q N) (hf : ∀ a, g.Runs P (f a) R N) : g.Runs P (act >>= f) R N :=
  ha.bind hP fun a => (hf a).mono (fun _ _ h => h.1) (fun _ _ _ => id) fun _ _ => id

theorem Runs.ite {c : Prop} [Decidable c] {act act' : EStateM Failure σ α}
    (h : c → g.Runs P act Q N) (h' : ¬c → g.Runs P act' Q N) :
    g.Runs P (if c then act else act') Q N := by
  split_ifs with hc
  · exact h hc
  · exact h' hc

theorem runs_forM (hP : g.Lasting P) {xs : List β} {act : β → EStateM Failure σ Unit}
    (h : ∀ x ∈ xs, g.Runs P (act x) (fun _ _ => True) N) :
    g.Runs P (xs.forM act) (fun _ _ => True) N := by
  induction xs with
  | nil => exact runs_pure fun _ _ _ => trivial
  | cons x xs ih =>
    obtain ⟨hx, hxs⟩ := List.forall_mem_cons.mp h
    exact hx.andThen hP fun _ => ih hxs

end Growth

/-! ### The memory of a unit -/

namespace Memory

/-- Every entry has the outline that the unit has at its offset, and is the first one or stands at one
of some offsets. -/
def Tracked (s : DebugSections) (u : CompileUnit) (B : Nat → Prop) (m : Memory) : Prop :=
  ∀ d ∈ m.entries, u.outline? s d.offset = some (u.outline d) ∧ (d.offset = u.start ∨ B d.offset)

def Within (m m' : Memory) : Prop := ∀ d ∈ m.entries, d ∈ m'.entries

variable {s : DebugSections} {u : CompileUnit} {B : Nat → Prop} {m : Memory}

theorem tracked_empty : Tracked s u B {} := fun d h => by cases h

theorem Tracked.add (h : m.Tracked s u B) {d : Die} (hd : u.outline? s d.offset = some (u.outline d))
    (ho : d.offset = u.start ∨ B d.offset) : (m.add d).Tracked s u B := by
  intro e he
  rcases mem_entries_add.mp he with rfl | he
  · exact ⟨hd, ho⟩
  · exact h e he

theorem mem_of_find? {offset : Nat} {d : Die} (h : m.find? offset = some d) :
    d ∈ m.entries ∧ d.offset = offset :=
  ⟨List.mem_of_find?_eq_some h, by simpa using List.find?_some h⟩

end Memory

namespace CompileUnit
variable {s : DebugSections} {u : CompileUnit} {m : Memory} {d : Die} {o : Nat}

/-- What has been decoded is kept. -/
theorem mem_entries_topDie (hd : d ∈ m.entries) : d ∈ (outcome (topDie s u) m).2.entries := by
  obtain ⟨_ | t, others⟩ := m
  · rw [outcome_topDie_none]
    cases die? s u none u.start with
    | none => exact hd
    | some t => exact List.mem_cons_of_mem _ hd
  · exact hd

/-- What is given is kept. -/
theorem mem_entries_of_topDie (hd : (outcome (topDie s u) m).1 = .ok d) :
    d ∈ (outcome (topDie s u) m).2.entries := by
  obtain ⟨_ | t, others⟩ := m
  · rw [outcome_topDie_none] at hd ⊢
    cases ht : die? s u none u.start with
    | none =>
      rw [ht] at hd
      cases hd
    | some t =>
      rw [ht] at hd
      simp only at hd ⊢
      split_ifs at hd
      cases hd
      exact List.mem_cons_self
  · cases hd
    exact List.mem_cons_self

theorem mem_entries_dieAt (hd : d ∈ m.entries) : d ∈ (outcome (dieAt s u o) m).2.entries := by
  have htop := mem_entries_topDie (s := s) (u := u) hd
  rw [outcome_dieAt]
  rcases hr : outcome (topDie s u) m with ⟨e | t, m₁⟩ <;> rw [hr] at htop
  · exact htop
  · simp only
    cases m₁.find? o with
    | some e => exact htop
    | none =>
      simp only
      cases die? s u (some t.attributes) o with
      | none => exact htop
      | some e => exact Memory.mem_entries_add.mpr (.inr htop)

theorem mem_entries_of_dieAt (hd : (outcome (dieAt s u o) m).1 = .ok d) :
    d ∈ (outcome (dieAt s u o) m).2.entries := by
  rw [outcome_dieAt] at hd ⊢
  rcases hr : outcome (topDie s u) m with ⟨e | t, m₁⟩ <;> rw [hr] at hd
  · cases hd
  · simp only at hd ⊢
    cases hfind : m₁.find? o with
    | some e =>
      rw [hfind] at hd
      cases hd
      exact List.mem_of_find?_eq_some hfind
    | none =>
      rw [hfind] at hd
      simp only at hd ⊢
      cases hdie : die? s u (some t.attributes) o with
      | none =>
        rw [hdie] at hd
        cases hd
      | some e =>
        rw [hdie] at hd
        cases hd
        exact Memory.mem_entries_add.mpr (.inl rfl)

end CompileUnit

namespace Growth
variable {s : DebugSections} {u : CompileUnit} {B : Nat → Prop}

def ofMemory (s : DebugSections) (u : CompileUnit) (B : Nat → Prop) : Growth Memory where
  sound := Memory.Tracked s u B
  le := Memory.Within
  refl _ _ h := h
  trans h h' d hd := h' d (h d hd)

theorem lasting_mem (d : Die) : (ofMemory s u B).Lasting fun m => d ∈ m.entries :=
  fun _ _ hle h => hle d h

variable {P : Memory → Prop} {N : Memory → Prop}

theorem runs_topDie : (ofMemory s u B).Runs P (u.topDie s) (fun d m => d ∈ m.entries) N := by
  have hrun (m : Memory) (hm : m.Tracked s u B) :
      (outcome (u.topDie s) m).2.Tracked s u B ∧
        (outcome (u.topDie s) m).1 ≠ .error .endless := by
    obtain ⟨_ | t, others⟩ := m
    · rw [CompileUnit.outcome_topDie_none]
      cases hd : u.die? s none u.start with
      | none => exact ⟨hm, by simp⟩
      | some d =>
        have hoffset := CompileUnit.die?_offset hd
        have hout := CompileUnit.outline?_of_die? hd
        have halike := @CompileUnit.alike_resolveAll s u (d.attributes.map (·.code)) d.attributes
        rw [← hoffset, ← CompileUnit.outline_alike halike] at hout
        refine ⟨hm.add hout (.inl hoffset), ?_⟩
        simp only
        split_ifs <;> simp
    · exact ⟨hm, by rw [CompileUnit.outcome_topDie_some]; simp⟩
  constructor
  · exact fun m hm _ => (hrun m hm).1
  · exact fun m _ _ d hd => CompileUnit.mem_entries_topDie hd
  · exact fun m _ _ d hd => CompileUnit.mem_entries_of_topDie hd
  · exact fun m hm _ he => absurd he (hrun m hm).2

/-- What is known of an entry that was looked for at an offset. -/
structure Met (s : DebugSections) (u : CompileUnit) (o : Nat) (d : Die) (m : Memory) : Prop where
  offset : d.offset = o
  mem : d ∈ m.entries
  outline : u.outline? s o = some (u.outline d)

theorem runs_dieAt {offset : Nat} (ho : B offset) :
    (ofMemory s u B).Runs P (u.dieAt s offset) (Met s u offset) N := by
  have hrun (m : Memory) (hm : m.Tracked s u B) :
      (outcome (u.dieAt s offset) m).2.Tracked s u B ∧
        (outcome (u.dieAt s offset) m).1 ≠ .error .endless ∧
        ∀ d, (outcome (u.dieAt s offset) m).1 = .ok d → d.offset = offset := by
    have htop := @runs_topDie s u B (fun _ => True) fun _ => False
    have hsound := htop.sound m hm trivial
    have hends := htop.endless m hm trivial
    rw [CompileUnit.outcome_dieAt]
    rcases hr : outcome (u.topDie s) m with ⟨e | top, m'⟩ <;> rw [hr] at hsound hends
    · exact ⟨hsound, hends, fun _ h => by cases h⟩
    · dsimp only at hsound ⊢
      cases hfind : m'.find? offset with
      | some d =>
        refine ⟨hsound, by simp, fun e he => ?_⟩
        cases he
        exact (Memory.mem_of_find? hfind).2
      | none =>
        cases hd : u.die? s (some top.attributes) offset with
        | none => exact ⟨hsound, by simp, fun _ h => by cases h⟩
        | some d =>
          have hoffset := CompileUnit.die?_offset hd
          have hout := CompileUnit.outline?_of_die? hd
          refine ⟨hsound.add (hoffset ▸ hout) (.inr (hoffset ▸ ho)), by simp, fun e he => ?_⟩
          cases he
          exact hoffset
  constructor
  · exact fun m hm _ => (hrun m hm).1
  · exact fun m _ _ d hd => CompileUnit.mem_entries_dieAt hd
  · intro m hm _ d hd
    obtain ⟨hsound, -, hoffset⟩ := hrun m hm
    have hmem := CompileUnit.mem_entries_of_dieAt hd
    exact ⟨hoffset d hd, hmem, hoffset d hd ▸ (hsound d hmem).1⟩
  · exact fun m hm _ he => absurd he (hrun m hm).2.1

/-! ### The desk of a walk -/

/-- The memory of every unit grows, and symbols are only added. -/
structure Grown (desk desk' : Desk) : Prop where
  memory : ∀ u, (desk.memory u).Within (desk'.memory u)
  found : ∃ more, desk'.found = desk.found ++ more

def ofDesk (s : DebugSections) (B : CompileUnit → Nat → Prop) : Growth Desk where
  sound desk := ∀ u, CompileUnit.at? s u.offset = some u → (desk.memory u).Tracked s u (B u)
  le := Grown
  refl _ := ⟨fun _ _ h => h, {}, (Symbols.append_empty _).symm⟩
  trans := by
    rintro a b c ⟨hm, more, hmore⟩ ⟨hm', more', hmore'⟩
    refine ⟨fun u d hd => hm' u d (hm u d hd), more ++ more', ?_⟩
    rw [hmore', hmore, Symbols.append_assoc]

variable {B : CompileUnit → Nat → Prop}

theorem sound_empty : (ofDesk s B).sound {} := fun _ _ => Memory.tracked_empty

theorem memory_remember_of_ne {desk : Desk} {m : Memory} {v : CompileUnit}
    (h : v.offset ≠ u.offset) : (desk.remember u m).memory v = desk.memory v := by
  have hne : (v.offset == u.offset) = false := by simpa using h
  unfold Desk.memory Desk.remember
  rw [List.lookup_cons, hne]
  exact congrArg (·.getD {}) (Desk.lookup_filter_ne h desk.memories)

theorem memory_remember_of_eq {desk : Desk} {m : Memory} {v : CompileUnit}
    (h : v.offset = u.offset) : (desk.remember u m).memory v = m := by
  have hu := Desk.memory_remember desk u m
  unfold Desk.memory at hu ⊢
  rw [h]
  exact hu

variable {α : Type} {P : Desk → Prop} {N : Desk → Prop}

/-- What changes no memory and adds symbols is a step up. -/
theorem runs_add {change : Desk → Desk} (hm : ∀ desk, (change desk).memories = desk.memories)
    (hf : ∀ desk, ∃ more, (change desk).found = desk.found ++ more) :
    (ofDesk s B).Runs P (modify change : Walk Unit) (fun _ _ => True) N := by
  have hmemory (desk : Desk) (u : CompileUnit) : (change desk).memory u = desk.memory u := by
    unfold Desk.memory
    rw [hm]
  constructor
  · intro desk hd _ u hu
    exact (hmemory desk u).symm ▸ hd u hu
  · intro desk _ _
    exact ⟨fun u d h => (hmemory desk u).symm ▸ h, hf desk⟩
  · intro _ _ _ _ _
    trivial
  · intro _ _ _ h
    cases h

theorem runs_modify {change : Desk → Desk} (hm : ∀ desk, (change desk).memories = desk.memories)
    (hf : ∀ desk, (change desk).found = desk.found) :
    (ofDesk s B).Runs P (modify change : Walk Unit) (fun _ _ => True) N :=
  runs_add hm fun desk => ⟨{}, (hf desk).trans (Symbols.append_empty _).symm⟩

theorem runs_get : (ofDesk s B).Runs P (get : Walk Desk) (fun _ _ => True) N where
  sound _ hd _ := hd
  grows desk _ _ := (ofDesk s B).refl desk
  gives _ _ _ _ _ := trivial
  endless _ _ _ h := by cases h

theorem runs_report (level : Level) (logger message : Text) :
    (ofDesk s B).Runs P (Walk.report level logger message) (fun _ _ => True) N :=
  runs_modify (fun _ => rfl) fun _ => rfl

theorem runs_ofRecord (r : Except RecordError α) :
    (ofDesk s B).Runs P (Walk.ofRecord r) (fun _ _ => True) N := by
  cases r with
  | ok a => exact runs_pure fun _ _ _ => trivial
  | error e => exact runs_throw fun h => by cases h

theorem runs_attempt {act : Walk α} {Q : α → Desk → Prop} (h : (ofDesk s B).Runs P act Q N) :
    (ofDesk s B).Runs P (Walk.attempt act) (fun o desk => ∀ a, o = some a → Q a desk) N := by
  have hstate (desk : Desk) := Walk.outcome_attempt_state act desk
  refine ⟨fun desk hd hp => hstate desk ▸ h.sound desk hd hp,
    fun desk hd hp => hstate desk ▸ h.grows desk hd hp,
    fun desk hd hp o ho a ha => ?_, fun desk hd hp he => ?_⟩
  · have hgives := h.gives desk hd hp a
    rw [Walk.outcome_attempt] at ho ⊢
    rcases hr : outcome act desk with ⟨(_ | _ | _) | b, desk'⟩ <;> rw [hr] at hgives ho <;>
      cases ho <;> cases ha
    exact hgives rfl
  · have hends := h.endless desk hd hp
    rw [Walk.outcome_attempt] at he ⊢
    rcases hr : outcome act desk with ⟨(_ | _ | _) | b, desk'⟩ <;> rw [hr] at hends he <;>
      cases he
    exact hends rfl

/-- What is known of the memory of a unit. -/
theorem runs_inUnit (hu : CompileUnit.at? s u.offset = some u) {act : Reading α}
    {P : Memory → Prop} {Q : α → Memory → Prop} {N : Memory → Prop}
    (h : (ofMemory s u (B u)).Runs P act Q N) :
    (ofDesk s B).Runs (fun desk => P (desk.memory u)) (Walk.inUnit u act)
      (fun a desk => Q a (desk.memory u)) fun desk => N (desk.memory u) := by
  have hmemory (desk : Desk) : (outcome (Walk.inUnit u act) desk).2.memory u =
      (outcome act (desk.memory u)).2 := by
    rw [Walk.outcome_inUnit, Desk.memory_remember]
  have hother (desk : Desk) {v : CompileUnit} (hv : v.offset ≠ u.offset) :
      (outcome (Walk.inUnit u act) desk).2.memory v = desk.memory v := by
    rw [Walk.outcome_inUnit, memory_remember_of_ne hv]
  constructor
  · intro desk hd hp v hv
    by_cases hne : v.offset = u.offset
    · rw [hne, hu] at hv
      cases hv
      rw [hmemory]
      exact h.sound _ (hd u hu) hp
    · rw [hother desk hne]
      exact hd v hv
  · intro desk hd hp
    have hfound : (outcome (Walk.inUnit u act) desk).2.found = desk.found := by
      rw [Walk.outcome_inUnit]
      rfl
    refine ⟨fun v => ?_, {}, hfound.trans (Symbols.append_empty _).symm⟩
    by_cases hne : v.offset = u.offset
    · have hsame : desk.memory v = desk.memory u := by
        unfold Desk.memory
        rw [hne]
      rw [Walk.outcome_inUnit, memory_remember_of_eq hne, hsame]
      exact h.grows _ (hd u hu) hp
    · rw [hother desk hne]
      exact fun _ h => h
  · intro desk hd hp a ha
    rw [hmemory]
    rw [Walk.outcome_inUnit] at ha
    exact h.gives _ (hd u hu) hp a ha
  · intro desk hd hp he
    rw [hmemory]
    rw [Walk.outcome_inUnit] at he
    exact h.endless _ (hd u hu) hp he

/-- What lasts in the memory of a unit lasts on the desk. -/
theorem Lasting.ofDesk {P : Memory → Prop} (h : (ofMemory s u (B u)).Lasting P) :
    (ofDesk s B).Lasting fun desk => P (desk.memory u) :=
  fun _ _ hle hp => h _ _ (hle.memory u) hp

end Growth

namespace CompileUnit

theorem at?_of_mem_listFrom {s : DebugSections} {fuel offset : Nat} {u : CompileUnit}
    (h : u ∈ (listFrom s fuel offset).1) : at? s u.offset = some u := by
  induction fuel generalizing offset with
  | zero => cases h
  | succ fuel ih =>
    rw [listFrom] at h
    split_ifs at h
    · cases h
    · cases hat : at? s offset with
      | none =>
        rw [hat] at h
        cases h
      | some v =>
        rw [hat] at h
        rcases List.mem_cons.mp h with rfl | h
        · rw [at?_offset hat]
          exact hat
        · exact ih h

theorem at?_of_mem_units {s : DebugSections} {u : CompileUnit} (h : u ∈ units s) :
    at? s u.offset = some u :=
  at?_of_mem_listFrom h

/-- A unit is known by its offset. -/
theorem eq_of_mem_units {s : DebugSections} {u w : CompileUnit} (hu : u ∈ units s)
    (hw : w ∈ units s) (h : w.offset = u.offset) : w = u := by
  have hat := at?_of_mem_units hw
  rw [h, at?_of_mem_units hu] at hat
  exact (Option.some.inj hat).symm

end CompileUnit

end ElfScope.Dwarf
