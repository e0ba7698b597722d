import Mathlib
import ElfScope.Dwarf.Walk
import ElfScope.Proofs.Dwarf.Plain

/-! # Records without memory

What is made of an entry is a function of the entry, whatever the unit has decoded before and whatever
types are cached, as long as no entry before the first one of the unit is decoded.
-/
namespace ElfScope.Dwarf

namespace Plain
variable {α : Type}

/-- Gives nothing where a reading fails, unless it has no end. -/
def attempt (p : Plain α) : Plain (Option α) :=
  ExceptT.mk (p.run.map fun
    | .ok a => .ok (some a)
    | .error .endless => .error .endless
    | .error _ => .ok none)

def ofRecord : Except RecordError α → Plain α
  | .ok a => return a
  | .error e => throw (.invalid e)

theorem attempt_pure (a : α) : attempt (pure a : Plain α) = pure (some a) := rfl

theorem gives_attempt_some {p : Plain α} {a : α} : p.attempt.Gives (some a) ↔ p.Gives a := by
  change Option.map _ p.run = _ ↔ p.run = _
  rcases p.run with _ | (_ | _ | _) | b <;> simp

/-- A reading that fails stands for a default, unless it has no end. -/
theorem run_getD_attempt (p : Plain α) (default : α) :
    ((·.getD default) <$> p.attempt).run = match p.run with
      | none => none
      | some (.ok a) => some (.ok a)
      | some (.error .endless) => some (.error .endless)
      | some (.error _) => some (.ok default) := by
  rw [ExceptT.run_map]
  change Option.map _ (Option.map _ p.run) = _
  rcases p.run with _ | (_ | _ | _) | a <;> rfl

theorem attempt_ofRecord (r : Except RecordError α) :
    attempt (ofRecord r) = pure r.toOption := by
  cases r <;> rfl

end Plain

namespace CompileUnit
variable (s : DebugSections) (u : CompileUnit) (t : Die)

/-- The children from a cursor on. -/
def childrenFrom : Nat → Cursor → Plain (List Die)
  | 0, _ => throw .endless
  | fuel + 1, c => do
    match ← nextAt s u t c with
    | none => return []
    | some (d, c) =>
      let rest ← childrenFrom fuel c
      return d :: rest

def childrenOf (d : Die) : Plain (List Die) :=
  match d.children? with
  | none => return []
  | some c => childrenFrom s u t (pathLimit s) c

def parametersOf (d : Die) : Plain (List VariableInfo) := do
  let children ← childrenOf s u t d
  return (children.filter (·.tag = some Tag.formalParameter)).map (·.variableInfo .parameter)

def membersOf (d : Die) : Plain (List MemberInfo) :=
  if d.typeKind = .struct ∨ d.typeKind = .union then do
    let children ← childrenOf s u t d
    return (children.filter (·.tag = some Tag.member)).filterMap (·.memberInfo.toOption)
  else return []

def functionOf (d : Die) : Plain FunctionInfo := do
  let parameters ← parametersOf s u t d
  Plain.ofRecord (d.functionInfo parameters)

def typeOf (d : Die) : Plain TypeInfo := do
  let members ← membersOf s u t d
  Plain.ofRecord (d.typeInfo members)

/-- The entry is what the unit has at its offset. -/
def Genuine (d : Die) : Prop := (entryAt s u t d.offset).Gives d

variable {s u t}

theorem genuine_top (ht : top? s u = some t) : Genuine s u t t := by
  unfold Genuine entryAt
  rw [if_pos (top?_offset ht)]
  exact Plain.gives_pure.mpr rfl

theorem Genuine.eq {d d' : Die} (h : Genuine s u t d) (h' : Genuine s u t d')
    (ho : d.offset = d'.offset) : d = d' := by
  unfold Genuine Plain.Gives at *
  rw [ho, h'] at h
  simpa using h.symm

theorem offset_of_entryAt (ht : top? s u = some t) {offset : Nat} {d : Die}
    (h : (entryAt s u t offset).Gives d) : d.offset = offset := by
  unfold entryAt at h
  by_cases ho : offset = u.start
  · rw [if_pos ho, Plain.gives_pure] at h
    rw [← h, ho, top?_offset ht]
  · rw [if_neg ho] at h
    split at h
    · cases Plain.not_gives_throw h
    · next d' hd =>
      by_cases hlt : offset < u.start
      · rw [if_pos hlt] at h
        cases h
      · rw [if_neg hlt, Plain.gives_pure] at h
        rw [← h, die?_offset hd]

theorem genuine_of_nextAt (ht : top? s u = some t) {c c' : Cursor} {d : Die}
    (h : (nextAt s u t c).Gives (some (d, c'))) : Genuine s u t d := by
  unfold nextAt advanceWith at h
  obtain ⟨offset, -, h⟩ := Plain.gives_bind.mp h
  obtain ⟨d', hd, h⟩ := Plain.gives_bind.mp h
  rw [Plain.gives_pure] at h
  split_ifs at h
  cases h
  have ho := offset_of_entryAt ht hd
  rw [← ho] at hd
  exact hd

end CompileUnit

/-! ### What a walk keeps of a unit -/

namespace Desk
variable {u : CompileUnit} {base desk : Desk}

theorem memory_remember (desk : Desk) (u : CompileUnit) (m : Memory) :
    (desk.remember u m).memory u = m := by
  simp [remember, memory]

theorem lookup_filter_ne {o o' : Nat} (h : o' ≠ o) (ms : List (Nat × Memory)) :
    (ms.filter (·.1 ≠ o)).lookup o' = ms.lookup o' := by
  induction ms with
  | nil => rfl
  | cons p ms ih =>
    obtain ⟨k, m⟩ := p
    by_cases hk : k = o
    · have hne : (o' == k) = false := by simpa [hk] using h
      rw [List.filter_cons_of_neg (by simpa using hk), List.lookup_cons, hne]
      exact ih
    · rw [List.filter_cons_of_pos (by simpa using hk), List.lookup_cons, List.lookup_cons, ih]

/-- Nothing but what belongs to one unit has changed, apart from the symbols and reports. -/
structure Apart (u : CompileUnit) (base desk : Desk) : Prop where
  memories : ∀ o, o ≠ u.offset → desk.memories.lookup o = base.memories.lookup o
  types : ∀ p ∈ desk.types, p ∈ base.types ∨ p.1.1 = u.offset

theorem Apart.refl (u : CompileUnit) (base : Desk) : Apart u base base :=
  ⟨fun _ _ => rfl, fun _ h => .inl h⟩

theorem Apart.remember (h : Apart u base desk) (m : Memory) : Apart u base (desk.remember u m) := by
  refine ⟨fun o ho => ?_, h.types⟩
  have hne : (o == u.offset) = false := by simpa using ho
  rw [← h.memories o ho, Desk.remember, List.lookup_cons, hne]
  exact lookup_filter_ne ho desk.memories

theorem Apart.cache (h : Apart u base desk) (k : Int) (info : TypeInfo) :
    Apart u base { desk with types := desk.types ++ [((u.offset, k), info)] } := by
  refine ⟨h.memories, fun p hp => ?_⟩
  rcases List.mem_append.mp hp with hp | hp
  · exact h.types p hp
  · rw [List.mem_singleton.mp hp]
    exact .inr rfl

/-- An entry before the first one of the unit has been decoded. -/
structure Spoilt (u : CompileUnit) (base desk : Desk) : Prop where
  apart : Apart u base desk
  stray : (desk.memory u).Stray u

/-- What has been decoded and cached of a unit is what the unit has. -/
structure Sound (s : DebugSections) (u : CompileUnit) (t : Die) (base : Desk) (found : Symbols)
    (desk : Desk) : Prop where
  apart : Apart u base desk
  memory : (desk.memory u).Sound s u t
  types : ∀ p ∈ desk.types, p.1.1 = u.offset → ∃ d, u.Genuine s t d ∧
    p.1.2 = d.unitOffset u ∧ (u.typeOf s t d).Gives p.2
  found : desk.found = found

end Desk

/-! ### Extraction -/

namespace Walk
variable {s : DebugSections} {u : CompileUnit} {t : Die} {base : Desk} {found : Symbols}
variable {α : Type}

/-- An action of a unit does what a plain reading does. -/
abbrev Follows (s : DebugSections) (u : CompileUnit) (t : Die) (base : Desk) (found : Symbols)
    (act : Walk α) (p : Plain α) : Prop :=
  Simulates (Desk.Sound s u t base found) (Desk.Spoilt u base) act p

theorem outcome_inUnit (act : Reading α) (desk : Desk) :
    outcome (inUnit u act) desk =
      ((outcome act (desk.memory u)).1, desk.remember u (outcome act (desk.memory u)).2) := by
  unfold outcome inUnit
  cases act (desk.memory u) <;> rfl

theorem follows_inUnit {act : Reading α} {p : Plain α}
    (h : Simulates (Memory.Sound s u t) (Memory.Stray u) act p) :
    Follows s u t base found (inUnit u act) p := by
  refine ⟨fun desk hd => ?_, fun desk hd => ?_⟩
  · rw [outcome_inUnit]
    exact ⟨hd.apart.remember _, by rw [Desk.memory_remember]; exact h.spoilt _ hd.stray⟩
  · rw [outcome_inUnit]
    rcases h.sound _ hd.memory with ⟨hp, hm⟩ | ⟨hp, hm⟩
    · exact .inl ⟨hp, hd.apart.remember _, by rw [Desk.memory_remember]; exact hm⟩
    · exact .inr ⟨hp, hd.apart.remember _, by rw [Desk.memory_remember]; exact hm, hd.types,
        hd.found⟩

theorem follows_report (level : Level) (logger message : Text) :
    Follows s u t base found (report level logger message) (pure ()) :=
  ⟨fun _ h => ⟨⟨h.apart.memories, h.apart.types⟩, h.stray⟩,
    fun _ h => .inr ⟨rfl, ⟨h.apart.memories, h.apart.types⟩, h.memory, h.types, h.found⟩⟩

theorem follows_ofRecord (r : Except RecordError α) :
    Follows s u t base found (ofRecord r) (Plain.ofRecord r) := by
  cases r with
  | ok a => exact .pure a
  | error e => exact .throw (.invalid e)

theorem outcome_attempt (act : Walk α) (desk : Desk) :
    outcome (attempt act) desk = match outcome act desk with
      | (.ok a, desk) => (.ok (some a), desk)
      | (.error .endless, desk) => (.error .endless, desk)
      | (.error _, desk) => (.ok none, desk) := by
  unfold outcome attempt
  rcases act desk with ⟨a, desk⟩ | ⟨_ | _ | _, desk⟩ <;> rfl

theorem outcome_attempt_state (act : Walk α) (desk : Desk) :
    (outcome (attempt act) desk).2 = (outcome act desk).2 := by
  rw [outcome_attempt]
  rcases outcome act desk with ⟨(_ | _ | _) | a, desk⟩ <;> rfl

theorem stays_attempt {P : Desk → Prop} {act : Walk α} (h : Stays P act) : Stays P (attempt act) :=
  fun desk hd => outcome_attempt_state act desk ▸ h desk hd

theorem follows_attempt {act : Walk α} {p : Plain α} (h : Follows s u t base found act p) :
    Follows s u t base found (attempt act) p.attempt := by
  refine ⟨stays_attempt h.spoilt, fun desk hd => ?_⟩
  rw [outcome_attempt_state]
  rcases h.sound desk hd with ⟨hp, hm⟩ | ⟨hp, hm⟩
  · exact .inl ⟨congrArg (Option.map _) hp, hm⟩
  · refine .inr ⟨(congrArg (Option.map _) hp).trans ?_, hm⟩
    rw [outcome_attempt]
    rcases outcome act desk with ⟨(_ | _ | _) | a, desk⟩ <;> rfl

theorem follows_orSkip {act : Walk α} {p : Plain α} (h : Follows s u t base found act p)
    (child : Die) (part : Text) : Follows s u t base found (orSkip child part act) p.attempt := by
  refine (follows_attempt h).bind_keep ?_
  intro o
  cases o with
  | some a => exact .pure (some a)
  | none => exact (follows_report _ _ _).bind fun _ => .pure none

theorem follows_collectFrom (ht : u.top? s = some t) {make : Die → Walk (Option α)}
    {f : Die → Option α} (h : ∀ d, Follows s u t base found (make d) (pure (f d))) (fuel : Nat)
    (c : Cursor) : Follows s u t base found (collectFrom s u make fuel c)
      (List.filterMap f <$> u.childrenFrom s t fuel c) := by
  induction fuel generalizing c with
  | zero => exact .throw .endless
  | succ fuel ih =>
    have hstep := (follows_inUnit (CompileUnit.simulates_advance ht c)).bind fun o =>
      (show Follows s u t base found
        (match o with
          | none => return []
          | some (child, cursor) => do
            let made ← make child
            let rest ← collectFrom s u make fuel cursor
            return made.toList ++ rest)
        (match o with
          | none => return []
          | some (d, c) => do
            let made ← pure (f d)
            let rest ← List.filterMap f <$> u.childrenFrom s t fuel c
            return made.toList ++ rest) by
        rcases o with _ | ⟨d, c⟩
        · exact .pure []
        · exact (h d).bind fun made => (ih c).bind fun rest => .pure _)
    have heq : List.filterMap f <$> u.childrenFrom s t (fuel + 1) c =
        u.nextAt s t c >>= fun o => match o with
          | none => return []
          | some (d, c) => do
            let made ← pure (f d)
            let rest ← List.filterMap f <$> u.childrenFrom s t fuel c
            return made.toList ++ rest := by
      rw [CompileUnit.childrenFrom, map_bind]
      congr 1
      funext o
      rcases o with _ | ⟨d, c⟩
      · rfl
      · simp only [map_bind, map_pure, pure_bind, bind_map_left, List.filterMap_cons]
        congr 1
        funext rest
        cases f d <;> rfl
    rw [heq]
    exact hstep

theorem follows_collectChildren (ht : u.top? s = some t) {make : Die → Walk (Option α)}
    {f : Die → Option α} (h : ∀ d, Follows s u t base found (make d) (pure (f d))) (d : Die)
    (tag : Nat) : Follows s u t base found (collectChildren s u d tag make)
      ((fun ds => (ds.filter (·.tag = some tag)).filterMap f) <$> u.childrenOf s t d) := by
  unfold collectChildren CompileUnit.childrenOf
  cases d.children? with
  | none => exact .pure []
  | some c =>
    have hchoose (d : Die) : Follows s u t base found
        (if d.tag = some tag then make d else return none)
        (pure (if d.tag = some tag then f d else none)) := by
      split_ifs
      · exact h d
      · exact .pure none
    have hc := follows_collectFrom ht hchoose (CompileUnit.pathLimit s) c
    convert hc using 2
    funext ds
    rw [List.filterMap_filter]
    simp

theorem follows_extractFunction (ht : u.top? s = some t) (d : Die) :
    Follows s u t base found (extractFunction s u d) (u.functionOf s t d) := by
  have hp (c : Die) : Follows s u t base found
      (orSkip c "parameter" (extractVariable c .parameter)) (pure (some (c.variableInfo .parameter))) :=
    follows_orSkip (.pure (c.variableInfo .parameter)) c _
  refine Simulates.bind ?_ fun ps => follows_ofRecord _
  convert follows_collectChildren ht hp d Tag.formalParameter using 1
  rw [CompileUnit.parametersOf, ← map_eq_pure_bind]
  congr 1
  funext ds
  rw [← List.filterMap_eq_map]
  rfl

theorem follows_extractMembers (ht : u.top? s = some t) (d : Die) :
    Follows s u t base found (extractMembers s u d) (u.membersOf s t d) := by
  have hm (c : Die) : Follows s u t base found (orSkip c "member" (extractMember c))
      (pure c.memberInfo.toOption) :=
    Plain.attempt_ofRecord c.memberInfo ▸ follows_orSkip (follows_ofRecord c.memberInfo) c _
  refine Simulates.ite (fun _ => ?_) fun _ => .pure []
  rw [← map_eq_pure_bind]
  exact follows_collectChildren ht hm d Tag.member

/-- A cached type is the type of the entry at its place. -/
theorem gives_of_cached {d : Die} (hd : u.Genuine s t d) {desk : Desk}
    (h : Desk.Sound s u t base found desk) {info : TypeInfo}
    (hl : desk.types.lookup (u.offset, d.unitOffset u) = some info) : (u.typeOf s t d).Gives info := by
  obtain ⟨before, after, htypes, -⟩ := List.lookup_eq_some_iff.mp hl
  obtain ⟨d', hd', ho, hgives⟩ := h.types ((u.offset, d.unitOffset u), info)
    (by rw [htypes]; simp) rfl
  have hoffset : d.offset = d'.offset := by
    simp only [Die.unitOffset] at ho
    omega
  rwa [hd.eq hd' hoffset]

theorem stays_cacheType (d : Die) (info : TypeInfo) :
    Stays (Desk.Spoilt u base) (cacheType u d info) :=
  fun _ h => ⟨h.apart.cache _ info, h.stray⟩

theorem follows_cacheType {d : Die} (hd : u.Genuine s t d) {info : TypeInfo}
    (h : (u.typeOf s t d).Gives info) :
    Follows s u t base found (cacheType u d info) (pure info) := by
  refine ⟨stays_cacheType d info,
    fun desk hs => .inr ⟨rfl, hs.apart.cache _ info, hs.memory, fun p hp => ?_, hs.found⟩⟩
  rcases List.mem_append.mp hp with hp | hp
  · exact hs.types p hp
  · rw [List.mem_singleton.mp hp]
    exact fun _ => ⟨d, hd, rfl, h⟩

theorem follows_makeType (ht : u.top? s = some t) (d : Die) :
    Follows s u t base found (makeType s u d) (u.typeOf s t d) :=
  (follows_extractMembers ht d).bind fun _ => follows_ofRecord _

theorem outcome_extractType (d : Die) (desk : Desk) :
    outcome (extractType s u d) desk =
      match desk.types.lookup (u.offset, d.unitOffset u) with
      | some info => (.ok info, desk)
      | none => outcome (makeType s u d >>= cacheType u d) desk := by
  unfold extractType
  rw [outcome_bind]
  change outcome (match desk.types.lookup (u.offset, d.unitOffset u) with
    | some info => pure info
    | none => _) desk = _
  cases desk.types.lookup (u.offset, d.unitOffset u) <;> rfl

theorem stays_extractType (ht : u.top? s = some t) (d : Die) :
    Stays (Desk.Spoilt u base) (extractType s u d) := by
  intro desk h
  rw [outcome_extractType]
  cases desk.types.lookup (u.offset, d.unitOffset u) with
  | some info => exact h
  | none => exact ((@follows_makeType s u t base {} ht d).spoilt.bind (stays_cacheType d)) desk h

theorem follows_extractType (ht : u.top? s = some t) {d : Die} (hd : u.Genuine s t d) :
    Follows s u t base found (extractType s u d) (u.typeOf s t d) := by
  have hmake : Follows s u t base found (makeType s u d >>= cacheType u d) (u.typeOf s t d) := by
    have h := (@follows_makeType s u t base found ht d).bind_gives (g := pure) (stays_cacheType d)
      fun info hi => follows_cacheType hd hi
    rw [bind_pure] at h
    exact h
  refine ⟨stays_extractType ht d, fun desk hs => ?_⟩
  rw [outcome_extractType]
  cases hl : desk.types.lookup (u.offset, d.unitOffset u) with
  | some info => exact .inr ⟨gives_of_cached hd hs hl, hs⟩
  | none => exact hmake.sound desk hs

end Walk

end ElfScope.Dwarf
