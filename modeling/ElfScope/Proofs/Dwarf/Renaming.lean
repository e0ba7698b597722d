import Mathlib
import ElfScope.Proofs.Dwarf.NameSources
import ElfScope.Proofs.Dwarf.Growth

/-! # Decoding with other tables of strings

Two runs side by side, in sections that differ in their tables of strings: from states that correspond
they come to states that correspond, with the same failure or with values that correspond. The way
through the entries of a unit depends on no string.
-/
namespace ElfScope.Dwarf

/-! ### Runs side by side -/

/-- The same error, or values that correspond. -/
inductive Matching {ε α α' : Type} (Q : α → α' → Prop) : Except ε α → Except ε α' → Prop where
  | error (e : ε) : Matching Q (.error e) (.error e)
  | ok {a : α} {a' : α'} : Q a a' → Matching Q (.ok a) (.ok a')

section
variable {σ α α' β β' : Type} {like : σ → σ → Prop}

def Mirrors (like : σ → σ → Prop) (act : EStateM Failure σ α) (act' : EStateM Failure σ α')
    (Q : α → α' → Prop) : Prop :=
  ∀ st st', like st st' →
    Matching Q (outcome act st).1 (outcome act' st').1 ∧ like (outcome act st).2 (outcome act' st').2

variable {act : EStateM Failure σ α} {act' : EStateM Failure σ α'} {Q : α → α' → Prop}

theorem mirrors_pure {a : α} {a' : α'} (h : Q a a') : Mirrors like (pure a) (pure a') Q :=
  fun _ _ hl => ⟨.ok h, hl⟩

theorem mirrors_throw (e : Failure) :
    Mirrors like (throw e : EStateM Failure σ α) (throw e : EStateM Failure σ α') Q :=
  fun _ _ hl => ⟨.error e, hl⟩

theorem mirrors_modify {change change' : σ → σ}
    (h : ∀ st st', like st st' → like (change st) (change' st')) :
    Mirrors like (modify change : EStateM Failure σ Unit) (modify change') fun _ _ => True :=
  fun st st' hl => ⟨.ok trivial, h st st' hl⟩

theorem Mirrors.bind {next : α → EStateM Failure σ β} {next' : α' → EStateM Failure σ β'}
    {R : β → β' → Prop} (h : Mirrors like act act' Q)
    (hnext : ∀ a a', Q a a' → Mirrors like (next a) (next' a') R) :
    Mirrors like (act >>= next) (act' >>= next') R := by
  intro st st' hl
  obtain ⟨hvalue, hstate⟩ := h st st' hl
  rw [outcome_bind, outcome_bind]
  rcases hr : outcome act st with ⟨r, st₁⟩
  rcases hr' : outcome act' st' with ⟨r', st₁'⟩
  rw [hr, hr'] at hvalue hstate
  cases hvalue with
  | error e => exact ⟨.error e, hstate⟩
  | ok ha => exact hnext _ _ ha st₁ st₁' hstate

theorem Mirrors.ite {c c' : Prop} [Decidable c] [Decidable c'] {alt : EStateM Failure σ α}
    {alt' : EStateM Failure σ α'} (hc : c ↔ c') (h : Mirrors like act act' Q)
    (h' : Mirrors like alt alt' Q) :
    Mirrors like (if c then act else alt) (if c' then act' else alt') Q := by
  by_cases hpos : c
  · rw [if_pos hpos, if_pos (hc.mp hpos)]
    exact h
  · rw [if_neg hpos, if_neg (mt hc.mpr hpos)]
    exact h'

theorem mirrors_forM {xs : List β} {each each' : β → EStateM Failure σ Unit}
    (h : ∀ x ∈ xs, Mirrors like (each x) (each' x) fun _ _ => True) :
    Mirrors like (xs.forM each) (xs.forM each') fun _ _ => True := by
  induction xs with
  | nil => exact mirrors_pure trivial
  | cons x xs ih =>
    obtain ⟨hx, hxs⟩ := List.forall_mem_cons.mp h
    exact hx.bind fun _ _ _ => ih hxs

end

/-! ### Entries -/

section
variable {s : DebugSections} {strings lineStrings : Bytes} {u : CompileUnit}

namespace Die.Renamed
variable {d d' : Die}

/-- An attribute is the same in both entries, or a string in both. -/
theorem attribute?_eq_or (h : Die.Renamed s strings lineStrings u d d') (code : Nat) :
    d.attribute? code = d'.attribute? code ∨ ∃ c form v v',
      d.attribute? code = some ⟨c, form, v⟩ ∧ d'.attribute? code = some ⟨c, form, v'⟩ ∧
        v.isString = true ∧ v'.isString = true := by
  obtain ⟨ws, -, has⟩ := h.attributes
  have hfound := has.found code
  unfold Die.attribute?
  generalize ws.get? code = w at hfound
  generalize d.attributes.get? code = a at hfound ⊢
  generalize d'.attributes.get? code = a' at hfound ⊢
  cases hfound with
  | none => exact .inl rfl
  | @some w a a' ha =>
    obtain ⟨c, form, v⟩ := a
    obtain ⟨c', form', v'⟩ := a'
    cases ha.code.trans ha.code'.symm
    cases ha.form.trans ha.form'.symm
    rcases ha.value.eq_or with hsame | hstrings
    · cases (show v = v' from hsame)
      exact .inl rfl
    · exact .inr ⟨c, form, v, v', rfl, rfl, hstrings⟩

theorem sameBases (h : Die.Renamed s strings lineStrings u d d') :
    Attributes.SameBases d.attributes d'.attributes := by
  obtain ⟨ws, -, has⟩ := h.attributes
  exact has.sameBases

theorem isNull (h : Die.Renamed s strings lineStrings u d d') : d.isNull = d'.isNull := by
  unfold Die.isNull
  rw [h.tag]

end Die.Renamed

/-- A sibling reference is a number. -/
theorem CompileUnit.siblingTarget_of_isString {c : Nat} {form : Form} {v : Value}
    (h : v.isString = true) : u.siblingTarget ⟨c, form, v⟩ = none := by
  cases v <;> first
    | cases h; done
    | cases form <;> rfl

/-! ### The memory of a unit -/

variable (s strings lineStrings u) in
structure Memory.Renamed (m m' : Memory) : Prop where
  top : Option.Rel (Die.Renamed s strings lineStrings u) m.top m'.top
  others : List.Forall₂ (Die.Renamed s strings lineStrings u) m.others m'.others

namespace Memory.Renamed
variable {m m' : Memory}

theorem empty : Memory.Renamed s strings lineStrings u {} {} := ⟨.none, .nil⟩

theorem entries (h : Memory.Renamed s strings lineStrings u m m') :
    List.Forall₂ (Die.Renamed s strings lineStrings u) m.entries m'.entries := by
  obtain ⟨top, others⟩ := m
  obtain ⟨top', others'⟩ := m'
  obtain ⟨htop, hothers⟩ := h
  cases htop with
  | none => exact hothers
  | some hd => exact .cons hd hothers

theorem find? (h : Memory.Renamed s strings lineStrings u m m') (offset : Nat) :
    Option.Rel (Die.Renamed s strings lineStrings u) (m.find? offset) (m'.find? offset) := by
  have hentries := h.entries
  unfold Memory.find?
  generalize m.entries = ds at hentries ⊢
  generalize m'.entries = ds' at hentries ⊢
  induction hentries with
  | nil => exact .none
  | cons hd _ ih =>
    rw [List.find?_cons, List.find?_cons, hd.offset]
    split
    · exact .some hd
    · exact ih

theorem add {d d' : Die} (h : Memory.Renamed s strings lineStrings u m m')
    (hd : Die.Renamed s strings lineStrings u d d') :
    Memory.Renamed s strings lineStrings u (m.add d) (m'.add d') := by
  obtain ⟨top, others⟩ := m
  obtain ⟨top', others'⟩ := m'
  obtain ⟨htop, hothers⟩ := h
  unfold Memory.add
  cases htop with
  | none => exact ⟨.some hd, hothers⟩
  | some ht =>
    simp only [hd.offset, ht.offset]
    split_ifs
    · exact ⟨.some hd, .cons ht hothers⟩
    · exact ⟨.some ht, .cons hd hothers⟩

end Memory.Renamed

namespace CompileUnit

theorem mirrors_topDie : Mirrors (Memory.Renamed s strings lineStrings u) (u.topDie s)
    (u.topDie (s.restring strings lineStrings)) (Die.Renamed s strings lineStrings u) := by
  rintro ⟨top, others⟩ ⟨top', others'⟩ ⟨htop, hothers⟩
  cases htop with
  | some hd =>
    rw [outcome_topDie_some, outcome_topDie_some]
    exact ⟨.ok hd, .some hd, hothers⟩
  | none =>
    have hdie := @die?_renamed s strings lineStrings u _ _ .none u.start
    rw [outcome_topDie_none, outcome_topDie_none]
    revert hdie
    generalize die? s u none u.start = x
    generalize die? (s.restring strings lineStrings) u none u.start = x'
    intro hdie
    cases hdie with
    | none => exact ⟨.error _, .none, hothers⟩
    | @some d d' hd =>
      obtain ⟨ws, hws, has⟩ := hd.attributes
      obtain ⟨hresolved, hattributes⟩ := resolveAll_renamed (d.attributes.map (·.code)) has
      have htop : Die.Renamed s strings lineStrings u
          { d with attributes := (resolveAll s u (d.attributes.map (·.code)) d.attributes).1 }
          { d' with attributes := (resolveAll (s.restring strings lineStrings) u
            (d.attributes.map (·.code)) d'.attributes).1 } :=
        ⟨hd.offset, hd.size, hd.tag, hd.hasChildren, ws, hws, hattributes⟩
      simp only [← has.codes, ← hresolved]
      refine ⟨?_, .some htop, hothers⟩
      split_ifs
      · exact .ok htop
      · exact .error _

theorem mirrors_dieAt (offset : Nat) : Mirrors (Memory.Renamed s strings lineStrings u)
    (u.dieAt s offset) (u.dieAt (s.restring strings lineStrings) offset)
    (Die.Renamed s strings lineStrings u) := by
  intro m m' hm
  obtain ⟨htop, hmemory⟩ := mirrors_topDie m m' hm
  rw [outcome_dieAt, outcome_dieAt]
  rcases hr : outcome (u.topDie s) m with ⟨r, m₁⟩
  rcases hr' : outcome (u.topDie (s.restring strings lineStrings)) m' with ⟨r', m₁'⟩
  rw [hr, hr'] at htop hmemory
  cases htop with
  | error e => exact ⟨.error e, hmemory⟩
  | @ok t t' ht =>
    have hfound := hmemory.find? offset
    simp only at hmemory hfound ⊢
    generalize m₁.find? offset = x at hfound ⊢
    generalize m₁'.find? offset = x' at hfound ⊢
    cases hfound with
    | some hd => exact ⟨.ok hd, hmemory⟩
    | none =>
      have hdie := @die?_renamed s strings lineStrings u _ _ (.some ht.sameBases) offset
      simp only
      revert hdie
      generalize die? s u (some t.attributes) offset = y
      generalize die? (s.restring strings lineStrings) u (some t'.attributes) offset = y'
      intro hdie
      cases hdie with
      | none => exact ⟨.error _, hmemory⟩
      | some hd => exact ⟨.ok hd, hmemory.add hd⟩

/-! ### Children -/

variable {σ : Type} {like : σ → σ → Prop} {find find' : Nat → EStateM Failure σ Nat}

theorem mirrors_followingWith {d d' : Die} (hd : Die.Renamed s strings lineStrings u d d')
    (h : ∀ offset, Mirrors like (find offset) (find' offset) Eq) :
    Mirrors like (u.followingWith find d) (u.followingWith find' d') Eq := by
  unfold followingWith
  rw [hd.hasChildren, hd.offset, hd.size]
  apply Mirrors.ite Iff.rfl (mirrors_pure rfl)
  rcases hd.attribute?_eq_or AttributeCode.sibling with hx | ⟨c, form, v, v', hx, hx', hv, hv'⟩
  · rw [hx]
    cases d'.attribute? AttributeCode.sibling with
    | none => exact h _
    | some a =>
      simp only
      cases u.siblingTarget a with
      | none => exact mirrors_throw _
      | some offset => exact mirrors_pure rfl
  · rw [hx, hx']
    simp only [siblingTarget_of_isString hv, siblingTarget_of_isString hv']
    exact mirrors_throw _

theorem mirrors_listEndWith (fuel offset : Nat) : Mirrors (Memory.Renamed s strings lineStrings u)
    (u.listEndWith (u.dieAt s) fuel offset)
    (u.listEndWith (u.dieAt (s.restring strings lineStrings)) fuel offset) Eq := by
  -- The offsets are the same in both runs, so they stay equal and only the entries correspond.
  induction fuel generalizing offset with
  | zero => exact mirrors_throw _
  | succ fuel ih =>
    rw [listEndWith, listEndWith]
    apply (mirrors_dieAt offset).bind
    intro d d' hd
    rw [hd.isNull, hd.offset, hd.size]
    apply Mirrors.ite Iff.rfl (mirrors_pure rfl)
    apply (mirrors_followingWith hd ih).bind
    rintro o _ rfl
    exact ih o

end CompileUnit

variable (s strings lineStrings u) in
inductive Cursor.Renamed : Cursor → Cursor → Prop where
  | at (offset : Nat) : Cursor.Renamed (.at offset) (.at offset)
  | after {d d' : Die} : Die.Renamed s strings lineStrings u d d' → Cursor.Renamed (.after d) (.after d')

theorem Die.Renamed.children? {d d' : Die} (h : Die.Renamed s strings lineStrings u d d') :
    d'.children? = d.children? := by
  unfold Die.children?
  rw [h.hasChildren, h.offset, h.size]

theorem Cursor.renamed_children {d : Die} {c : Cursor} (hc : d.children? = some c) :
    Cursor.Renamed s strings lineStrings u c c := by
  unfold Die.children? at hc
  split_ifs at hc
  obtain rfl := Option.some.inj hc
  exact .at _

variable (s strings lineStrings u) in
/-- The next child, with the cursor after it. -/
def NextRenamed : Option (Die × Cursor) → Option (Die × Cursor) → Prop :=
  Option.Rel fun x x' => Die.Renamed s strings lineStrings u x.1 x'.1 ∧
    Cursor.Renamed s strings lineStrings u x.2 x'.2

theorem CompileUnit.mirrors_advance {c c' : Cursor} (hc : Cursor.Renamed s strings lineStrings u c c') :
    Mirrors (Memory.Renamed s strings lineStrings u) (u.advance s c)
      (u.advance (s.restring strings lineStrings) c') (NextRenamed s strings lineStrings u) := by
  have hplace : Mirrors (Memory.Renamed s strings lineStrings u)
      (u.placeWith (u.dieAt s) (pathLimit s) c)
      (u.placeWith (u.dieAt (s.restring strings lineStrings)) (pathLimit s) c') Eq := by
    cases hc with
    | «at» offset => exact mirrors_pure rfl
    | after hd => exact mirrors_followingWith hd (mirrors_listEndWith (pathLimit s))
  unfold advance advanceWith
  apply hplace.bind
  rintro o _ rfl
  apply (mirrors_dieAt o).bind
  intro d d' hd
  apply mirrors_pure
  rw [hd.isNull]
  split_ifs
  · exact .none
  · exact .some ⟨hd, .after hd⟩

end

end ElfScope.Dwarf
