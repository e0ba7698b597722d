import Mathlib
import ElfScope.Dwarf.Children

/-! # Entries without memory

Decoding an entry depends on what its unit has decoded before only through the top entry, and the top
entry is the first one as long as no entry before it is decoded. Up to there every reading gives what
it gives without memory.
-/
namespace ElfScope.Dwarf

/-- Readings without memory. There is nothing where an entry before the first one of the unit would
be decoded. -/
abbrev Plain (α : Type) := ExceptT Failure Option α

section Outcomes
variable {σ α β : Type}

theorem outcome_bind (act : EStateM Failure σ α) (f : α → EStateM Failure σ β) (st : σ) :
    outcome (act >>= f) st = match outcome act st with
      | (.ok a, st) => outcome (f a) st
      | (.error e, st) => (.error e, st) := by
  change outcome (EStateM.bind act f) st = _
  unfold outcome EStateM.bind
  cases act st <;> rfl

end Outcomes

namespace Plain
variable {α β : Type}

/-- A plain reading ends with a value. -/
def Gives (p : Plain α) (a : α) : Prop := p.run = some (.ok a)

theorem gives_pure {a b : α} : (pure a : Plain α).Gives b ↔ a = b := by
  simp [Gives]

theorem not_gives_throw {e : Failure} {a : α} : ¬(throw e : Plain α).Gives a := by
  simp [Gives]

theorem gives_bind {p : Plain α} {f : α → Plain β} {b : β} :
    (p >>= f).Gives b ↔ ∃ a, p.Gives a ∧ (f a).Gives b := by
  unfold Gives
  rw [ExceptT.run_bind]
  rcases p.run with _ | _ | a <;> simp

/-- What follows a known value. -/
theorem bind_of_gives {p : Plain α} {a : α} (h : p.Gives a) (f : α → Plain β) :
    p >>= f = f a := by
  apply ExceptT.ext
  rw [ExceptT.run_bind, h]
  rfl

theorem gives_map {p : Plain α} {f : α → β} {b : β} :
    (f <$> p).Gives b ↔ ∃ a, p.Gives a ∧ f a = b := by
  rw [map_eq_pure_bind, gives_bind]
  simp only [gives_pure]

end Plain

/-! ### Simulation -/

/-- A property of the state that an action does not end, also where it fails. -/
def Stays {σ α : Type} (P : σ → Prop) (act : EStateM Failure σ α) : Prop :=
  ∀ st, P st → P (outcome act st).2

/-- A property that holds after an action holds after what follows it. -/
theorem Stays.after {σ α β : Type} {P : σ → Prop} {act : EStateM Failure σ α}
    {f : α → EStateM Failure σ β} (hf : ∀ a, Stays P (f a)) {st : σ} (h : P (outcome act st).2) :
    P (outcome (act >>= f) st).2 := by
  rw [outcome_bind]
  rcases hr : outcome act st with ⟨r, st'⟩
  rw [hr] at h
  cases r with
  | ok a => exact hf a st' h
  | error e => exact h

theorem Stays.bind {σ α β : Type} {P : σ → Prop} {act : EStateM Failure σ α}
    {f : α → EStateM Failure σ β} (ha : Stays P act) (hf : ∀ a, Stays P (f a)) :
    Stays P (act >>= f) :=
  fun st h => Stays.after hf (ha st h)

/-- From a sound state an action does what a plain one does and leaves a sound state, or it leaves a
spoilt one where the plain one gives nothing. A spoilt state stays spoilt. -/
structure Simulates {σ α : Type} (Sound Spoilt : σ → Prop) (act : EStateM Failure σ α)
    (p : Plain α) : Prop where
  spoilt : Stays Spoilt act
  sound : ∀ st, Sound st → (p.run = none ∧ Spoilt (outcome act st).2) ∨
    (p.run = some (outcome act st).1 ∧ Sound (outcome act st).2)

namespace Simulates
variable {σ α β : Type} {Sound Spoilt : σ → Prop}

theorem pure (a : α) : Simulates Sound Spoilt (pure a) (pure a) :=
  ⟨fun _ h => h, fun _ h => .inr ⟨rfl, h⟩⟩

theorem throw (e : Failure) : Simulates Sound Spoilt (throw e : EStateM Failure σ α) (throw e) :=
  ⟨fun _ h => h, fun _ h => .inr ⟨rfl, h⟩⟩

/-- What follows may rely on the value that the plain reading gives. -/
theorem bind_gives {act : EStateM Failure σ α} {p : Plain α} {f : α → EStateM Failure σ β}
    {g : α → Plain β} (ha : Simulates Sound Spoilt act p) (hs : ∀ a, Stays Spoilt (f a))
    (hf : ∀ a, p.Gives a → Simulates Sound Spoilt (f a) (g a)) :
    Simulates Sound Spoilt (act >>= f) (p >>= g) := by
  refine ⟨ha.spoilt.bind hs, fun st h => ?_⟩
  rcases ha.sound st h with ⟨hp, hsp⟩ | ⟨hp, hso⟩
  · refine .inl ⟨?_, Stays.after hs hsp⟩
    rw [ExceptT.run_bind, hp]
    rfl
  · rw [outcome_bind, ExceptT.run_bind, hp]
    rcases hr : outcome act st with ⟨r, st'⟩
    rw [hr] at hso hp
    cases r with
    | ok a => exact (hf a hp).sound st' hso
    | error e => exact .inr ⟨rfl, hso⟩

theorem bind {act : EStateM Failure σ α} {p : Plain α} {f : α → EStateM Failure σ β}
    {g : α → Plain β} (ha : Simulates Sound Spoilt act p)
    (hf : ∀ a, Simulates Sound Spoilt (f a) (g a)) : Simulates Sound Spoilt (act >>= f) (p >>= g) :=
  ha.bind_gives (fun a => (hf a).spoilt) fun a _ => hf a

/-- Nothing is changed by what follows. -/
theorem bind_keep {act : EStateM Failure σ α} {p : Plain α} {f : α → EStateM Failure σ α}
    (ha : Simulates Sound Spoilt act p) (hf : ∀ a, Simulates Sound Spoilt (f a) (Pure.pure a)) :
    Simulates Sound Spoilt (act >>= f) p := by
  have h := ha.bind hf
  rw [bind_pure] at h
  exact h

/-- What follows a known value. -/
theorem bind_of_pure {act : EStateM Failure σ α} {a : α} {f : α → EStateM Failure σ β} {p : Plain β}
    (ha : Simulates Sound Spoilt act (Pure.pure a)) (hs : ∀ b, Stays Spoilt (f b))
    (hf : Simulates Sound Spoilt (f a) p) : Simulates Sound Spoilt (act >>= f) p := by
  have h := ha.bind_gives (g := fun _ => p) hs fun b hb => by
    cases Plain.gives_pure.mp hb
    exact hf
  rw [pure_bind] at h
  exact h

theorem ite {c : Prop} [Decidable c] {act act' : EStateM Failure σ α} {p p' : Plain α}
    (h : c → Simulates Sound Spoilt act p) (h' : ¬c → Simulates Sound Spoilt act' p') :
    Simulates Sound Spoilt (if c then act else act') (if c then p else p') := by
  by_cases hc : c
  · rw [if_pos hc, if_pos hc]
    exact h hc
  · rw [if_neg hc, if_neg hc]
    exact h' hc

end Simulates

/-! ### Entries of a unit -/

namespace CompileUnit

theorem die?_offset {s : DebugSections} {u : CompileUnit} {bases : Option Attributes} {offset : Nat}
    {d : Die} (h : die? s u bases offset = some d) : d.offset = offset := by
  unfold die? at h
  obtain ⟨p, -, h⟩ := Option.bind_eq_some_iff.mp h
  simp only at h
  split_ifs at h
  · cases h
    rfl
  · obtain ⟨table, -, h⟩ := Option.bind_eq_some_iff.mp h
    obtain ⟨abbreviation, -, h⟩ := Option.bind_eq_some_iff.mp h
    obtain ⟨q, -, h⟩ := Option.bind_eq_some_iff.mp h
    cases h
    rfl

variable (s : DebugSections) (u : CompileUnit)

/-- The first entry of a unit, with its own indices resolved. -/
def top? : Option Die := do
  let d ← die? s u none u.start
  let (attributes, resolved) := resolveAll s u (d.attributes.map (·.code)) d.attributes
  if resolved then return { d with attributes } else none

variable {s u}

theorem top?_offset {t : Die} (h : top? s u = some t) : t.offset = u.start := by
  unfold top? at h
  obtain ⟨d, hd, h⟩ := Option.bind_eq_some_iff.mp h
  simp only at h
  split_ifs at h
  cases h
  exact (die?_offset hd :)

theorem outcome_topDie_none (others : List Die) :
    outcome (topDie s u) ⟨none, others⟩ = match die? s u none u.start with
      | none => (.error .undecodable, ⟨none, others⟩)
      | some d =>
        let r := resolveAll s u (d.attributes.map (·.code)) d.attributes
        (if r.2 then .ok { d with attributes := r.1 } else .error .undecodable,
          ⟨some { d with attributes := r.1 }, others⟩) := by
  unfold topDie
  rw [outcome_bind]
  change outcome (match die? s u none u.start with
    | none => throw Failure.undecodable
    | some d => _) (⟨none, others⟩ : Memory) = _
  cases die? s u none u.start with
  | none => rfl
  | some d =>
    simp only
    rw [outcome_bind]
    split_ifs <;> rfl

theorem outcome_topDie_some (t : Die) (others : List Die) :
    outcome (topDie s u) ⟨some t, others⟩ = (.ok t, ⟨some t, others⟩) := rfl

theorem outcome_topDie_of_top? {t : Die} (h : top? s u = some t) :
    outcome (topDie s u) {} = (.ok t, ⟨some t, []⟩) := by
  unfold top? at h
  obtain ⟨d, hd, h⟩ := Option.bind_eq_some_iff.mp h
  simp only at h
  split_ifs at h with hr
  cases h
  rw [outcome_topDie_none, hd]
  simp only [if_pos hr]

/-- Without a first entry nothing is decoded. -/
theorem outcome_topDie_of_top?_none (h : top? s u = none) :
    (outcome (topDie s u) {}).1 = .error .undecodable := by
  unfold top? at h
  rw [outcome_topDie_none]
  cases hd : die? s u none u.start with
  | none => rfl
  | some d =>
    rw [hd] at h
    simp only [Option.bind_eq_bind, Option.bind_some] at h
    split_ifs at h with hr
    simp only [if_neg hr]

theorem outcome_dieAt (offset : Nat) (m : Memory) :
    outcome (dieAt s u offset) m = match outcome (topDie s u) m with
      | (.error e, m) => (.error e, m)
      | (.ok top, m) => match m.find? offset with
        | some d => (.ok d, m)
        | none => match die? s u (some top.attributes) offset with
          | none => (.error .undecodable, m)
          | some d => (.ok d, m.add d) := by
  unfold dieAt
  rw [outcome_bind]
  rcases outcome (topDie s u) m with ⟨_ | top, m⟩
  · rfl
  · simp only
    rw [outcome_bind]
    change outcome (match m.find? offset with
      | some d => pure d
      | none => _) m = _
    cases m.find? offset with
    | some d => rfl
    | none =>
      simp only
      cases die? s u (some top.attributes) offset <;> rfl

variable (s u) (t : Die)

/-- An entry of a unit with a given top entry. -/
def entryAt (offset : Nat) : Plain Die :=
  if offset = u.start then pure t
  else match die? s u (some t.attributes) offset with
    | none => throw .undecodable
    | some d => if offset < u.start then ExceptT.mk none else pure d

end CompileUnit

namespace Memory

/-- An entry before the first one of the unit has been decoded. -/
def Stray (u : CompileUnit) (m : Memory) : Prop := ∃ d ∈ m.entries, d.offset < u.start

/-- Nothing but entries from the first one on has been decoded. -/
def Sound (s : DebugSections) (u : CompileUnit) (t : Die) (m : Memory) : Prop :=
  m = {} ∨ m.top = some t ∧ ∀ d ∈ m.others, u.start < d.offset ∧
    u.die? s (some t.attributes) d.offset = some d

theorem mem_entries_add {m : Memory} {d e : Die} :
    d ∈ (m.add e).entries ↔ d = e ∨ d ∈ m.entries := by
  unfold add entries
  rcases m with ⟨_ | t, others⟩
  · simp
  · simp only
    split_ifs <;> simp [or_left_comm]

theorem Stray.add {u : CompileUnit} {m : Memory} (h : Stray u m) (e : Die) : Stray u (m.add e) := by
  obtain ⟨d, hd, hlt⟩ := h
  exact ⟨d, mem_entries_add.mpr (.inr hd), hlt⟩

end Memory

namespace CompileUnit
variable {s : DebugSections} {u : CompileUnit} {t : Die}

theorem stray_topDie {m : Memory} (h : m.Stray u) : (outcome (topDie s u) m).2.Stray u := by
  rcases m with ⟨_ | d, others⟩
  · rw [outcome_topDie_none]
    cases die? s u none u.start with
    | none => exact h
    | some d => exact h.add _
  · exact h

theorem stray_dieAt {m : Memory} (h : m.Stray u) (offset : Nat) :
    (outcome (dieAt s u offset) m).2.Stray u := by
  have htop := @stray_topDie s u m h
  rw [outcome_dieAt]
  rcases hr : outcome (topDie s u) m with ⟨_ | top, m'⟩
  · rw [hr] at htop
    exact htop
  · rw [hr] at htop
    simp only
    split
    · exact htop
    · split
      · exact htop
      · exact htop.add _

/-- A sound memory gives its top entry, and is one that has it. -/
theorem topDie_sound (ht : top? s u = some t) {m : Memory} (h : m.Sound s u t) :
    ∃ others, outcome (topDie s u) m = (.ok t, ⟨some t, others⟩) ∧
      ∀ d ∈ others, u.start < d.offset ∧ u.die? s (some t.attributes) d.offset = some d := by
  rcases h with rfl | ⟨htop, hothers⟩
  · exact ⟨[], outcome_topDie_of_top? ht, by simp⟩
  · obtain ⟨top, others⟩ := m
    cases htop
    exact ⟨others, outcome_topDie_some t others, hothers⟩

theorem simulates_topDie (ht : top? s u = some t) :
    Simulates (Memory.Sound s u t) (Memory.Stray u) (topDie s u) (pure t) := by
  refine ⟨fun m h => stray_topDie h, fun m h => .inr ?_⟩
  obtain ⟨others, htop, hothers⟩ := topDie_sound ht h
  rw [htop]
  exact ⟨rfl, .inr ⟨rfl, hothers⟩⟩

theorem simulates_dieAt (ht : top? s u = some t) (offset : Nat) :
    Simulates (Memory.Sound s u t) (Memory.Stray u) (dieAt s u offset) (entryAt s u t offset) := by
  refine ⟨fun m h => stray_dieAt h offset, fun m h => ?_⟩
  obtain ⟨others, htop, hothers⟩ := topDie_sound ht h
  have hstart := top?_offset ht
  rw [outcome_dieAt, htop]
  simp only
  unfold entryAt
  by_cases ho : offset = u.start
  · have hfind : Memory.find? ⟨some t, others⟩ offset = some t := by
      simp [Memory.find?, Memory.entries, ho, hstart]
    rw [if_pos ho, hfind]
    exact .inr ⟨rfl, .inr ⟨rfl, hothers⟩⟩
  · have hfind : Memory.find? ⟨some t, others⟩ offset = others.find? (·.offset = offset) := by
      simp [Memory.find?, Memory.entries, hstart, Ne.symm ho]
    rw [if_neg ho, hfind]
    cases hf : others.find? (·.offset = offset) with
    | some d =>
      obtain ⟨hlt, hd⟩ := hothers d (List.mem_of_find?_eq_some hf)
      have hoffset : d.offset = offset := by simpa using List.find?_some hf
      rw [hoffset] at hlt hd
      rw [hd]
      simp only
      rw [if_neg (by omega)]
      exact .inr ⟨rfl, .inr ⟨rfl, hothers⟩⟩
    | none =>
      cases hd : die? s u (some t.attributes) offset with
      | none => exact .inr ⟨rfl, .inr ⟨rfl, hothers⟩⟩
      | some d =>
        have hoffset := die?_offset hd
        simp only
        split_ifs with hlt
        · exact .inl ⟨rfl, d, Memory.mem_entries_add.mpr (.inl rfl), hoffset ▸ hlt⟩
        · refine .inr ⟨rfl, .inr ?_⟩
          have hadd : Memory.add ⟨some t, others⟩ d = ⟨some t, d :: others⟩ := by
            unfold Memory.add
            simp only
            rw [if_neg (by omega)]
          rw [hadd]
          refine ⟨rfl, List.forall_mem_cons.mpr ⟨⟨by omega, hoffset ▸ hd⟩, hothers⟩⟩

/-! ### Ways through the entries -/

section Ways
variable {σ : Type} {Sound Spoilt : σ → Prop}

theorem simulates_followingWith {subtreeEnd : Nat → EStateM Failure σ Nat} {p : Nat → Plain Nat}
    (h : ∀ offset, Simulates Sound Spoilt (subtreeEnd offset) (p offset)) (u : CompileUnit) (d : Die) :
    Simulates Sound Spoilt (followingWith u subtreeEnd d) (followingWith u p d) := by
  refine Simulates.ite (fun _ => .pure _) fun _ => ?_
  cases d.attribute? AttributeCode.sibling with
  | none => exact h _
  | some a =>
    cases hs : siblingTarget u a with
    | none =>
      simp only [hs]
      exact .throw _
    | some offset =>
      simp only [hs]
      exact .pure _

variable {dieAt : Nat → EStateM Failure σ Die} {p : Nat → Plain Die}

theorem simulates_listEndWith (h : ∀ offset, Simulates Sound Spoilt (dieAt offset) (p offset))
    (u : CompileUnit) (fuel offset : Nat) :
    Simulates Sound Spoilt (listEndWith u dieAt fuel offset) (listEndWith u p fuel offset) := by
  induction fuel generalizing offset with
  | zero => exact .throw _
  | succ fuel ih =>
    refine (h offset).bind fun d => Simulates.ite (fun _ => .pure _) fun _ => ?_
    exact (simulates_followingWith ih u d).bind ih

theorem simulates_advanceWith (h : ∀ offset, Simulates Sound Spoilt (dieAt offset) (p offset))
    (u : CompileUnit) (limit : Nat) (c : Cursor) :
    Simulates Sound Spoilt (advanceWith u dieAt limit c) (advanceWith u p limit c) := by
  have hplace : Simulates Sound Spoilt (placeWith u dieAt limit c) (placeWith u p limit c) := by
    cases c with
    | «at» offset => exact .pure offset
    | after d => exact simulates_followingWith (simulates_listEndWith h u limit) u d
  exact hplace.bind fun offset => (h offset).bind fun d => .pure _

end Ways

/-- The next child without memory. -/
def nextAt (s : DebugSections) (u : CompileUnit) (t : Die) (c : Cursor) :
    Plain (Option (Die × Cursor)) :=
  advanceWith u (entryAt s u t) (pathLimit s) c

theorem simulates_advance (ht : top? s u = some t) (c : Cursor) :
    Simulates (Memory.Sound s u t) (Memory.Stray u) (advance s u c) (nextAt s u t c) :=
  simulates_advanceWith (simulates_dieAt ht) u (pathLimit s) c

end CompileUnit

end ElfScope.Dwarf
