import Mathlib
import ElfScope.Proofs.Dwarf.Course

/-! # Traversals in pre-order

A traversal keeps a stack of iterators that are under way. It gives what the recursion over the tree of
entries gives: every entry before the entries below it, and these before the entries after it, up to the
first iterator that fails.
-/
namespace ElfScope

/-! ### Trees and their pre-order -/

namespace Preorder

/-- What an iterator of nodes gives: each node with what the iterator of its own children gives, and
after the last one an end or a failure. -/
inductive Offspring (α ε : Type) where
  | ended
  | failed (e : ε)
  | child (a : α) (below rest : Offspring α ε)

namespace Offspring
variable {α ε : Type} (marked : α → Bool)

/-- The nodes in recursive pre-order, where `above` are the nodes above them from the top on. Failures
stand at the places where they come up. -/
def steps : List α → Offspring α ε → List (Except ε (Visit α))
  | _, .ended => []
  | _, .failed e => [.error e]
  | above, .child a below rest =>
    .ok ⟨a, above.length, above.any marked⟩ :: (steps (above ++ [a]) below ++ steps above rest)

theorem steps_top (t : α) (x : Offspring α ε) :
    (Offspring.child t x .ended).steps marked [] = .ok ⟨t, 0, false⟩ :: x.steps marked [t] := by
  simp [steps]

def size : Offspring α ε → Nat
  | .ended => 0
  | .failed _ => 1
  | .child _ below rest => 1 + below.size + rest.size

theorem length_steps (above : List α) (x : Offspring α ε) : (x.steps marked above).length = x.size := by
  induction x generalizing above with
  | ended => rfl
  | failed e => rfl
  | child a below rest ihb ihr =>
    rw [steps, List.length_cons, List.length_append, ihb, ihr, size]
    omega

end Offspring

variable {α ε β : Type}

/-- What comes before the first failure. -/
def yielded : List (Except ε β) → List β
  | [] => []
  | .ok b :: left => b :: yielded left
  | .error _ :: _ => []

def raised : List (Except ε β) → Option ε
  | [] => none
  | .ok _ :: left => raised left
  | .error e :: _ => some e

/-- How a traversal ends that raises a failure, or none. -/
def ending : Option ε → Except ε Unit
  | none => .ok ()
  | some e => .error e

end Preorder

namespace Dwarf

/-! ### A stack of iterators -/

/-- From every state of a kind an action has the same result, and leaves a state of the kind. -/
def Determined {σ α : Type} (I : σ → Prop) (act : EStateM Failure σ α) (r : Except Failure α) : Prop :=
  ∀ st, I st → (outcome act st).1 = r ∧ I (outcome act st).2

section Stack
variable {σ α κ : Type} (I : σ → Prop) (advance : κ → EStateM Failure σ (Option (α × κ)))
variable (children : α → Option κ) (marked : α → Bool)

open ElfScope.Preorder (Offspring Visit ending yielded raised)

/-- The iterator at a cursor gives some nodes, and the iterators of their children what is below them. A
node without children has no iterator. -/
inductive Iterates : Option κ → Offspring α Failure → Prop
  | childless : Iterates none .ended
  | ended {c : κ} (h : Determined I (advance c) (.ok none)) : Iterates (some c) .ended
  | failed {c : κ} {e : Failure} (he : e ≠ .endless) (h : Determined I (advance c) (.error e)) :
      Iterates (some c) (.failed e)
  | child {c c' : κ} {a : α} {below rest : Offspring α Failure}
      (h : Determined I (advance c) (.ok (some (a, c')))) (hbelow : Iterates (children a) below)
      (hrest : Iterates (some c') rest) : Iterates (some c) (.child a below rest)

/-- The levels of a stack, innermost first, and the steps that are left of them. -/
inductive Underway : List (Preorder.Level κ) → List (Except Failure (Visit α)) → Prop
  | nil : Underway [] []
  | cons {c : κ} {x : Offspring α Failure} {levels : List (Preorder.Level κ)}
      {left : List (Except Failure (Visit α))} (above : List α)
      (h : Iterates I advance children (some c) x) (hlevels : Underway levels left) :
      Underway (⟨c, above.length, above.any marked⟩ :: levels) (x.steps marked above ++ left)

/-- The next node and the levels after it, where some steps are left. -/
inductive Goes : List (Except Failure (Visit α)) →
    Except Failure (Option (Visit α × List (Preorder.Level κ))) → Prop
  | ended : Goes [] (.ok none)
  | failed {e : Failure} {left : List (Except Failure (Visit α))} (he : e ≠ .endless) :
      Goes (.error e :: left) (.error e)
  | visited {v : Visit α} {levels : List (Preorder.Level κ)} {left : List (Except Failure (Visit α))}
      (h : Underway I advance children marked levels left) :
      Goes (.ok v :: left) (.ok (some (v, levels)))

variable {I advance children marked}

/-- What an iterator gives depends on its cursor only. -/
theorem Iterates.unique {c : Option κ} {x y : Offspring α Failure} {st : σ} (hst : I st)
    (hx : Iterates I advance children c x) (hy : Iterates I advance children c y) : x = y := by
  have hsame {act : EStateM Failure σ (Option (α × κ))} {r r' : Except Failure (Option (α × κ))}
      (h : Determined I act r) (h' : Determined I act r') : r = r' :=
    (h st hst).1.symm.trans (h' st hst).1
  induction hx generalizing y with
  | childless =>
    cases hy
    rfl
  | ended h =>
    cases hy with
    | ended h' => rfl
    | failed he h' => cases hsame h h'
    | child h' hbelow hrest => cases hsame h h'
  | failed he h =>
    cases hy with
    | ended h' => cases hsame h h'
    | failed he' h' =>
      cases hsame h h'
      rfl
    | child h' hbelow hrest => cases hsame h h'
  | child h _ _ ihb ihr =>
    cases hy with
    | ended h' => cases hsame h h'
    | failed he h' => cases hsame h h'
    | child h' hbelow hrest =>
      cases hsame h h'
      rw [ihb hbelow, ihr hrest]

variable {x : Offspring α Failure} {levels : List (Preorder.Level κ)}
variable {left : List (Except Failure (Visit α))}

/-- The children of a node come on top of the stack. -/
theorem underway_below {a : α} (above : List α) (h : Iterates I advance children (children a) x)
    (hlevels : Underway I advance children marked levels left) :
    Underway I advance children marked
      (Preorder.below children marked ⟨a, above.length, above.any marked⟩ ++ levels)
      (x.steps marked (above ++ [a]) ++ left) := by
  unfold Preorder.below
  cases hc : children a with
  | none =>
    rw [hc] at h
    cases h
    exact hlevels
  | some c =>
    rw [hc] at h
    have hcons := Underway.cons (above ++ [a]) h hlevels
    rw [List.length_append, List.any_append] at hcons
    simpa using hcons

theorem underway_top {t : α} (h : Iterates I advance children (children t) x) :
    Underway I advance children marked (Preorder.below children marked ⟨t, 0, false⟩)
      (x.steps marked [t]) := by
  have hnil : Underway I advance children marked [] [] := .nil
  simpa using underway_below [] h hnil

theorem Determined.outcome_eq {β : Type} {act : EStateM Failure σ β} {r : Except Failure β}
    (h : Determined I act r) {st : σ} (hst : I st) : outcome act st = (r, (outcome act st).2) :=
  Prod.ext (h st hst).1 rfl

theorem outcome_bind_ok {β γ : Type} {act : EStateM Failure σ β} {b : β} {st : σ}
    (h : (outcome act st).1 = .ok b) (f : β → EStateM Failure σ γ) :
    outcome (act >>= f) st = outcome (f b) (outcome act st).2 := by
  rw [outcome_bind]
  rcases hrun : outcome act st with ⟨r, st'⟩
  rw [hrun] at h
  cases h
  rfl

/-- A stack goes on with the first step that is left. Levels that have ended are closed on the way. -/
theorem Underway.goes (h : Underway I advance children marked levels left) {st : σ} (hst : I st) :
    Goes I advance children marked left
        (outcome (Preorder.next advance children marked levels) st).1 ∧
      I (outcome (Preorder.next advance children marked levels) st).2 := by
  -- A level that has ended leaves its steps to the levels under it, which the hypothesis is about.
  induction h generalizing st with
  | nil => exact ⟨.ended, hst⟩
  | @cons c x levels left above hx hlevels ih =>
    rw [Preorder.next, outcome_bind]
    cases hx with
    | ended h =>
      rw [h.outcome_eq hst]
      exact ih (h st hst).2
    | failed he h =>
      rw [h.outcome_eq hst]
      exact ⟨.failed he, (h st hst).2⟩
    | @child _ c' a below rest h hbelow hrest =>
      rw [h.outcome_eq hst]
      refine ⟨?_, (h st hst).2⟩
      have hunderway := underway_below above hbelow (Underway.cons above hrest hlevels)
      rw [Offspring.steps, List.cons_append, List.append_assoc]
      exact .visited hunderway

/-- What the iterators keep is kept by a step of the stack. -/
theorem Underway.keeps {P : σ → Prop} (hP : ∀ c st, I st → P st → P (outcome (advance c) st).2)
    (h : Underway I advance children marked levels left) {st : σ} (hst : I st) (hp : P st) :
    P (outcome (Preorder.next advance children marked levels) st).2 := by
  induction h generalizing st with
  | nil => exact hp
  | @cons c x levels left above hx hlevels ih =>
    have hstep := hP c st hst hp
    rw [Preorder.next, outcome_bind]
    cases hx with
    | ended h =>
      rw [h.outcome_eq hst]
      exact ih (h st hst).2 hstep
    | failed he h =>
      rw [h.outcome_eq hst]
      exact hstep
    | child h hbelow hrest =>
      rw [h.outcome_eq hst]
      exact hstep

/-- What holds of a state is kept by a handler and by the iterators: after some visits that are handled,
something holds of these visits. -/
structure Handles (I : σ → Prop) (advance : κ → EStateM Failure σ (Option (α × κ)))
    (handle : Visit α → EStateM Failure σ Unit) (visits : List (Visit α))
    (J : List (Visit α) → σ → Prop) : Prop where
  advance : ∀ past c st, I st → J past st → J past (outcome (advance c) st).2
  handle : ∀ past v future, visits = past ++ v :: future → ∀ st, I st → J past st →
    (outcome (handle v) st).1 = .ok () ∧ I (outcome (handle v) st).2 ∧
      J (past ++ [v]) (outcome (handle v) st).2

/-- The steps before the first failure are handled in order, and then the failure comes up. -/
theorem outcome_forEach {handle : Visit α → EStateM Failure σ Unit} {J : List (Visit α) → σ → Prop}
    (past : List (Visit α)) (hhandle : Handles I advance handle (past ++ yielded left) J)
    (h : Underway I advance children marked levels left) (outOfFuel : EStateM Failure σ Unit)
    (fuel : Nat) (hfuel : left.length < fuel) {st : σ} (hst : I st) (hpast : J past st) :
    (outcome (Preorder.forEach advance children marked handle outOfFuel fuel levels) st).1 =
        ending (raised left) ∧
      J (past ++ yielded left)
        (outcome (Preorder.forEach advance children marked handle outOfFuel fuel levels) st).2 := by
  -- One step goes from what is left to what is past, and `J` follows the visits that are past.
  induction fuel generalizing levels left past st with
  | zero => exact absurd hfuel (Nat.not_lt_zero _)
  | succ fuel ih =>
    obtain ⟨hgoes, hI⟩ := h.goes hst
    have hkeeps := h.keeps (hhandle.advance past) hst hpast
    rw [Preorder.forEach, outcome_bind]
    rcases hrun : outcome (Preorder.next advance children marked levels) st with ⟨r, st'⟩
    rw [hrun] at hgoes hI hkeeps
    cases hgoes with
    | ended =>
      rw [yielded, List.append_nil]
      exact ⟨rfl, hkeeps⟩
    | failed he =>
      rw [yielded, List.append_nil]
      exact ⟨rfl, hkeeps⟩
    | @visited v levels' left' h' =>
      rw [yielded] at hhandle ⊢
      obtain ⟨hok, hI', hJ⟩ := hhandle.handle past v _ rfl st' hI hkeeps
      have hassoc : past ++ v :: yielded left' = past ++ [v] ++ yielded left' := by simp
      rw [hassoc] at hhandle ⊢
      have hrest := ih (past ++ [v]) hhandle h' (Nat.lt_of_succ_lt_succ hfuel) hI' hJ
      change (outcome (handle v >>= fun _ => _) st').1 = _ ∧
        J _ (outcome (handle v >>= fun _ => _) st').2
      rw [outcome_bind_ok hok]
      exact hrest

/-- A top node is handled, and then the tree below it in recursive pre-order. -/
theorem outcome_walk {handle : Visit α → EStateM Failure σ Unit} {J : List (Visit α) → σ → Prop}
    {t : α} (hx : Iterates I advance children (children t) x)
    (hhandle : Handles I advance handle
      (yielded ((Offspring.child t x .ended).steps marked [])) J)
    (outOfFuel : EStateM Failure σ Unit) {fuel : Nat} (hfuel : x.size < fuel) {st : σ} (hst : I st)
    (hstart : J [] st) :
    (outcome (Preorder.walk advance children marked handle outOfFuel fuel t) st).1 =
        ending (raised ((Offspring.child t x .ended).steps marked [])) ∧
      J (yielded ((Offspring.child t x .ended).steps marked []))
        (outcome (Preorder.walk advance children marked handle outOfFuel fuel t) st).2 := by
  rw [Offspring.steps_top, yielded] at hhandle ⊢
  obtain ⟨hok, hI, hJ⟩ := hhandle.handle [] ⟨t, 0, false⟩ _ rfl st hst hstart
  have hrest := outcome_forEach [⟨t, 0, false⟩] hhandle (underway_top hx) outOfFuel fuel
    (by rwa [Offspring.length_steps]) hI hJ
  change (outcome (handle ⟨t, 0, false⟩ >>= fun _ => _) st).1 = _ ∧
    J _ (outcome (handle ⟨t, 0, false⟩ >>= fun _ => _) st).2
  rw [outcome_bind_ok hok]
  exact hrest

end Stack

/-! ### The entries of a unit -/

namespace Memory

/-- A memory as decoding leaves it: one entry for each offset, and none before there is a top entry. -/
structure Regular (s : DebugSections) (u : CompileUnit) (m : Memory) : Prop where
  tracked : m.Tracked s u fun _ => True
  distinct : (m.entries.map (·.offset)).Nodup
  topmost : m.top = none → m.others = []

variable {s : DebugSections} {u : CompileUnit} {m : Memory}

theorem regular_empty (s : DebugSections) (u : CompileUnit) : Regular s u {} :=
  ⟨tracked_empty, .nil, fun _ => rfl⟩

theorem entries_add_perm (m : Memory) (d : Die) : (m.add d).entries.Perm (d :: m.entries) := by
  unfold add entries
  rcases m with ⟨_ | t, others⟩
  · exact .refl _
  · simp only
    split_ifs
    · exact .refl _
    · exact .swap d t others

theorem add_top_ne_none (m : Memory) (d : Die) : (m.add d).top ≠ none := by
  unfold add
  rcases m with ⟨_ | t, others⟩
  · simp
  · simp only
    split_ifs <;> simp

theorem Regular.add (h : m.Regular s u) {d : Die} (hd : u.outline? s d.offset = some (u.outline d))
    (hnew : ∀ e ∈ m.entries, e.offset ≠ d.offset) : (m.add d).Regular s u := by
  refine ⟨h.tracked.add hd (.inr trivial), ?_, fun hnone => absurd hnone (add_top_ne_none m d)⟩
  rw [((entries_add_perm m d).map _).nodup_iff, List.map_cons, List.nodup_cons]
  refine ⟨fun hmem => ?_, h.distinct⟩
  obtain ⟨e, he, ho⟩ := List.mem_map.mp hmem
  exact hnew e he ho

theorem Regular.offset_lt (h : m.Regular s u) {d : Die} (hd : d ∈ m.entries) :
    d.offset < s.info.length := by
  obtain ⟨hpos, hle⟩ := CompileUnit.outline?_size (h.tracked d hd).1
  omega

/-- There are not more entries than bytes. -/
theorem Regular.length_le (h : m.Regular s u) {ds : List Die} (hds : ds.Nodup)
    (hsub : ∀ d ∈ ds, d ∈ m.entries) : ds.length ≤ s.info.length := by
  have hinj : ∀ d ∈ ds, ∀ e ∈ ds, d.offset = e.offset → d = e := fun d hd e he =>
    List.inj_on_of_nodup_map h.distinct (hsub d hd) (hsub e he)
  have hnodup : (ds.map (·.offset)).Nodup := hds.map_on hinj
  rw [← List.length_map (·.offset)]
  refine CompileUnit.length_le_of_nodup hnodup fun o ho => ?_
  obtain ⟨d, hd, rfl⟩ := List.mem_map.mp ho
  exact h.offset_lt (hsub d hd)

end Memory

namespace CompileUnit
variable {s : DebugSections} {u : CompileUnit}

theorem stays_regular_topDie : Stays (Memory.Regular s u) (u.topDie s) := by
  intro m hm
  have hruns : (Growth.ofMemory s u fun _ => True).Runs (fun _ => True) (u.topDie s)
      (fun d m => d ∈ m.entries) fun _ => True := Growth.runs_topDie
  have htracked : (outcome (u.topDie s) m).2.Tracked s u fun _ => True :=
    hruns.sound m hm.tracked trivial
  obtain ⟨_ | t, others⟩ := m
  · cases hm.topmost rfl
    rw [outcome_topDie_none] at htracked ⊢
    cases hd : u.die? s none u.start with
    | none => exact hm
    | some d =>
      rw [hd] at htracked
      exact ⟨htracked, by simp [Memory.entries], by simp⟩
  · exact hm

theorem stays_regular_dieAt (offset : Nat) : Stays (Memory.Regular s u) (u.dieAt s offset) := by
  intro m hm
  have htop := stays_regular_topDie m hm
  rw [outcome_dieAt]
  rcases hr : outcome (u.topDie s) m with ⟨e | top, m'⟩ <;> rw [hr] at htop
  · exact htop
  · simp only
    cases hfind : m'.find? offset with
    | some d => exact htop
    | none =>
      simp only
      cases hd : u.die? s (some top.attributes) offset with
      | none => exact htop
      | some d =>
        have hoffset := die?_offset hd
        refine htop.add (hoffset ▸ outline?_of_die? hd) fun e he => ?_
        have hne := List.find?_eq_none.mp hfind e he
        rw [hoffset]
        simpa using hne

/-- What each decoding keeps is kept by a step of an iterator. -/
theorem stays_advance {P : Memory → Prop} (h : ∀ offset, Stays P (u.dieAt s offset)) (c : Cursor) :
    Stays P (u.advance s c) := by
  have hsimulates (offset : Nat) :
      Simulates (fun _ => False) P (u.dieAt s offset) (throw .undecodable) :=
    ⟨h offset, fun _ hfalse => hfalse.elim⟩
  exact (simulates_advanceWith hsimulates u (pathLimit s) c).spoilt

variable (s u) in
/-- What the iterators of a unit give, from all states of memory of a kind. -/
abbrev Gives (I : Memory → Prop) (c : Option Cursor) (x : Preorder.Offspring Die Failure) : Prop :=
  Iterates I (u.advance s) Die.children? c x

/-- What comes from an entry on has a size. It is that of all that is below it and after it. -/
def Extends (s : DebugSections) (u : CompileUnit) (I : Memory → Prop) (d : Die) (n : Nat) : Prop :=
  ∃ below rest, Gives s u I d.children? below ∧ Gives s u I (some (.after d)) rest ∧
    n = 1 + below.size + rest.size

variable {I : Memory → Prop}

theorem Extends.unique {d : Die} {n n' : Nat} {m : Memory} (hm : I m) (h : Extends s u I d n)
    (h' : Extends s u I d n') : n = n' := by
  obtain ⟨below, rest, hbelow, hrest, rfl⟩ := h
  obtain ⟨below', rest', hbelow', hrest', rfl⟩ := h'
  rw [hbelow.unique hm hbelow', hrest.unique hm hrest']

/-- A way down the entries and along them. On it less and less is left, so no entry comes twice. -/
structure Way (s : DebugSections) (u : CompileUnit) (I : Memory → Prop) (m : Memory) (way : List Die)
    (left : Nat) : Prop where
  inside : I m
  regular : m.Regular s u
  nodup : way.Nodup
  mem : ∀ d ∈ way, d ∈ m.entries
  longer : ∀ d ∈ way, ∀ n, Extends s u I d n → left < n

theorem Way.length_le {m : Memory} {way : List Die} {left : Nat} (h : Way s u I m way left) :
    way.length ≤ s.info.length :=
  h.regular.length_le h.nodup h.mem

theorem known_children? {d : Die} {m : Memory} :
    ∀ c ∈ d.children?, c.Known (fun _ => True) m := by
  unfold Die.children?
  split_ifs <;> simp [Cursor.Known]

/-- The tree below an entry has not more entries than there are ways through distinct ones. -/
theorem size_le {c : Option Cursor} {x : Preorder.Offspring Die Failure} (hx : Gives s u I c x)
    {m : Memory} (hc : ∀ c' ∈ c, c'.Known (fun _ => True) m) {way : List Die}
    (hway : Way s u I m way x.size) : x.size + 1 ≤ 2 ^ (s.info.length + 1 - way.length) := by
  have hpos {way : List Die} {left : Nat} {m : Memory} (hway : Way s u I m way left) :
      2 ≤ 2 ^ (s.info.length + 1 - way.length) := by
    have hle := hway.length_le
    calc 2 = 2 ^ 1 := rfl
      _ ≤ 2 ^ (s.info.length + 1 - way.length) := Nat.pow_le_pow_right (by omega) (by omega)
  induction hx generalizing m way with
  | childless => exact (hpos hway).trans' (by simp [Preorder.Offspring.size])
  | ended h => exact (hpos hway).trans' (by simp [Preorder.Offspring.size])
  | failed he h => exact hpos hway
  | @child c c' d below rest h hbelow hrest ihb ihr =>
    -- the step to the entry leaves a memory that has it, and in which the way goes on
    have hruns := Growth.runs_advance (covers_all s u) c
    have hknown := hc c rfl
    obtain ⟨hr, hI⟩ := h m hway.inside
    have hregular := stays_advance stays_regular_dieAt c m hway.regular
    have hgrows := hruns.grows m hway.regular.tracked hknown
    have hgives := hruns.gives m hway.regular.tracked hknown _ hr
    obtain ⟨rfl, hafter, -⟩ := hgives
    have hextends : Extends s u I d (1 + below.size + rest.size) := ⟨below, rest, hbelow, hrest, rfl⟩
    have hnew : d ∉ way := fun hd => (hway.longer d hd _ hextends).false
    have hgo (left : Nat) (hleft : left < 1 + below.size + rest.size) :
        Way s u I (outcome (u.advance s c) m).2 (d :: way) left := by
      refine ⟨hI, hregular, List.nodup_cons.mpr ⟨hnew, hway.nodup⟩, ?_, ?_⟩
      · exact List.forall_mem_cons.mpr ⟨hafter.1, fun e he => hgrows e (hway.mem e he)⟩
      · refine List.forall_mem_cons.mpr ⟨fun n hn => ?_, fun e he n hn => ?_⟩
        · rwa [hn.unique hway.inside hextends]
        · exact hleft.trans (hway.longer e he n hn)
    have hwayBelow := hgo below.size (by omega)
    have hwayRest := hgo rest.size (by omega)
    have hsizeBelow := ihb known_children? hwayBelow
    have hsizeRest := ihr (fun c' hc' => Option.some.inj hc' ▸ hafter) hwayRest
    have hle := hwayBelow.length_le
    rw [List.length_cons] at hsizeBelow hsizeRest hle
    have hpow : 2 ^ (s.info.length + 1 - way.length) =
        2 * 2 ^ (s.info.length + 1 - (way.length + 1)) := by
      rw [← pow_succ']
      congr 1
      omega
    rw [hpow, Preorder.Offspring.size]
    omega

/-- The entries of a unit are a tree: its top entry is decoded, and the iterators below it give some
offspring. -/
structure Spans (s : DebugSections) (u : CompileUnit) (I : Memory → Prop) (t : Die)
    (x : Preorder.Offspring Die Failure) : Prop where
  top : Determined I (u.topDie s) (.ok t)
  below : Gives s u I t.children? x

/-- The steps of a unit in pre-order, its top entry first. -/
def preorder (t : Die) (x : Preorder.Offspring Die Failure) :
    List (Except Failure (Preorder.Visit Die)) :=
  (Preorder.Offspring.child t x .ended).steps Die.isSubprogram []

/-- The limit of a traversal is above the number of entries. -/
theorem Spans.size_lt {t : Die} {x : Preorder.Offspring Die Failure} (h : Spans s u I t x) {m : Memory}
    (hm : I m) (hregular : m.Regular s u) : x.size < visitLimit s := by
  have hway : Way s u I m [] x.size := ⟨hm, hregular, .nil, by simp, by simp⟩
  have hle := size_le h.below known_children? hway
  have hpow : visitLimit s = 2 * 2 ^ (s.info.length + 1) := by
    rw [visitLimit, pathLimit, Nat.one_shiftLeft, pow_succ']
  rw [List.length_nil, Nat.sub_zero] at hle
  omega

end CompileUnit

namespace Walk
variable {s : DebugSections} {u : CompileUnit} {I : Memory → Prop}

/-- The memory of a unit is of a kind. -/
def Keeping (u : CompileUnit) (I : Memory → Prop) (desk : Desk) : Prop := I (desk.memory u)

theorem determined_inUnit {α : Type} {act : Reading α} {r : Except Failure α} (h : Determined I act r) :
    Determined (Keeping u I) (inUnit u act) r := by
  intro desk hdesk
  rw [outcome_inUnit]
  exact ⟨(h _ hdesk).1, by rw [Keeping, Desk.memory_remember]; exact (h _ hdesk).2⟩

theorem iterates_inUnit {c : Option Cursor} {x : Preorder.Offspring Die Failure}
    (h : u.Gives s I c x) :
    Iterates (Keeping u I) (fun c => inUnit u (u.advance s c)) Die.children? c x := by
  induction h with
  | childless => exact .childless
  | ended h => exact .ended (determined_inUnit h)
  | failed he h => exact .failed he (determined_inUnit h)
  | child h _ _ ihb ihr => exact .child (determined_inUnit h) ihb ihr

/-- A stack of the iterators of a unit. -/
abbrev Stacked (s : DebugSections) (u : CompileUnit) (I : Memory → Prop)
    (levels : List (Preorder.Level Cursor)) (left : List (Except Failure (Preorder.Visit Die))) : Prop :=
  Underway (Keeping u I) (fun c => inUnit u (u.advance s c)) Die.children? Die.isSubprogram levels left

open ElfScope.Preorder (ending yielded raised)

theorem outcome_entriesFrom {levels : List (Preorder.Level Cursor)}
    {left : List (Except Failure (Preorder.Visit Die))} (h : Stacked s u I levels left) (fuel : Nat)
    (hfuel : left.length < fuel) {desk : Desk} (hdesk : Keeping u I desk) :
    (outcome (entriesFrom s u fuel levels) desk).1 = .ok (yielded left, (raised left).isSome) := by
  induction fuel generalizing levels left desk with
  | zero => exact absurd hfuel (Nat.not_lt_zero _)
  | succ fuel ih =>
    obtain ⟨hgoes, hdesk⟩ := h.goes hdesk
    rw [entriesFrom, outcome_bind, outcome_attempt]
    rcases hrun : outcome (Preorder.next (fun c => inUnit u (u.advance s c)) Die.children?
      Die.isSubprogram levels) desk with ⟨r, desk'⟩
    rw [hrun] at hgoes hdesk
    cases hgoes with
    | ended => rfl
    | @failed e _ he =>
      cases e with
      | endless => exact absurd rfl he
      | undecodable => rfl
      | invalid e => rfl
    | visited h' =>
      have hrest := ih h' (Nat.lt_of_succ_lt_succ hfuel) hdesk
      change (outcome (entriesFrom s u fuel _ >>= fun _ => _) desk').1 = _
      rw [outcome_bind_ok hrest]
      rfl

/-- A traversal of a unit whose entries are a tree gives the recursive pre-order of this tree up to the
first iterator that fails, and then this failure. A handler is given the same entries in this order. -/
theorem traversal_eq_preorder {t : Die} {x : Preorder.Offspring Die Failure}
    (h : u.Spans s I t x) {desk : Desk} (hdesk : Keeping u I desk)
    (hregular : (desk.memory u).Regular s u) :
    (outcome (entries s u) desk).1 =
        .ok (yielded (CompileUnit.preorder t x), (raised (CompileUnit.preorder t x)).isSome) ∧
      ∀ (handle : Preorder.Visit Die → Walk Unit) (J : List (Preorder.Visit Die) → Desk → Prop),
        Handles (Keeping u I) (fun c => inUnit u (u.advance s c)) handle
          (yielded (CompileUnit.preorder t x)) J →
        J [] (outcome (inUnit u (u.topDie s)) desk).2 →
        (outcome (forEntries s u handle) desk).1 = ending (raised (CompileUnit.preorder t x)) ∧
          J (yielded (CompileUnit.preorder t x)) (outcome (forEntries s u handle) desk).2 := by
  have htop := @determined_inUnit u I _ _ _ h.top
  have hfuel := h.size_lt hdesk hregular
  have hdesk' := (htop desk hdesk).2
  constructor
  · have hrest := outcome_entriesFrom (underway_top (iterates_inUnit h.below))
      (CompileUnit.visitLimit s) (by rwa [Preorder.Offspring.length_steps]) hdesk'
    rw [entries, outcome_bind, outcome_attempt, htop.outcome_eq hdesk]
    change (outcome (entriesFrom s u _ _ >>= fun _ => _) _).1 = _
    rw [outcome_bind_ok hrest, CompileUnit.preorder, Preorder.Offspring.steps_top]
    rfl
  · intro handle J hhandle hstart
    rw [forEntries, outcome_bind, htop.outcome_eq hdesk]
    exact outcome_walk (iterates_inUnit h.below) hhandle _ hfuel hdesk' hstart

/-- A simulation of a reading that gives a result gives it from every sound state. -/
theorem determined_of_simulates {σ α : Type} {Sound Spoilt : σ → Prop} {act : EStateM Failure σ α}
    {p : Plain α} (h : Simulates Sound Spoilt act p) {r : Except Failure α} (hp : p.run = some r) :
    Determined Sound act r := by
  intro st hst
  rcases h.sound st hst with ⟨hnone, -⟩ | ⟨hsome, hsound⟩
  · cases hp.symm.trans hnone
  · exact ⟨Option.some.inj (hsome.symm.trans hp), hsound⟩

/-- A subprogram with a block, and an abbreviation after it that does not exist. -/
def brokenList : DebugSections where
  info := [11, 0, 0, 0, 4, 0, 0, 0, 0, 0, 8, 1, 2, 3, 9]
  abbreviations := [1, 17, 1, 0, 0, 2, 46, 1, 0, 0, 3, 11, 0, 0, 0, 0]

def brokenUnit : CompileUnit where
  offset := 0
  header := ⟨11, ⟨4, false, 8⟩, 0⟩
  start := 11
  table := Abbreviation.table? brokenList.abbreviations 0

def brokenTop : Die := ⟨11, 1, some 17, true, []⟩

def brokenOffspring : Preorder.Offspring Die Failure :=
  .child ⟨12, 1, some 46, true, []⟩
    (.child ⟨13, 1, some 11, false, []⟩ .ended (.failed .undecodable)) (.failed .undecodable)

theorem brokenList_preorder :
    (outcome (entries brokenList brokenUnit) {}).1 =
        .ok ([⟨brokenTop, 0, false⟩, ⟨⟨12, 1, some 46, true, []⟩, 1, false⟩,
          ⟨⟨13, 1, some 11, false, []⟩, 2, true⟩], true) ∧
      (outcome (forEntries brokenList brokenUnit fun _ => return ()) {}).1 = .error .undecodable := by
  have htop : brokenUnit.top? brokenList = some brokenTop := by decide +kernel
  have hstep (c : Cursor) {r : Except Failure (Option (Die × Cursor))}
      (h : (brokenUnit.nextAt brokenList brokenTop c).run = some r) :=
    determined_of_simulates (CompileUnit.simulates_advance htop c) h
  have hspans : brokenUnit.Spans brokenList (Memory.Sound brokenList brokenUnit brokenTop) brokenTop
      brokenOffspring := by
    refine ⟨determined_of_simulates (CompileUnit.simulates_topDie htop) rfl, ?_⟩
    refine .child (hstep (.at 12) (by cbv)) ?_ (.failed (by simp) (hstep _ (by cbv)))
    refine .child (hstep (.at 13) (by cbv)) .childless (.failed (by simp) (hstep _ (by cbv)))
  obtain ⟨hentries, hforEntries⟩ := @traversal_eq_preorder _ _ _ _ _ hspans {} (.inl rfl)
    (Memory.regular_empty _ _)
  refine ⟨hentries, (hforEntries _ (fun _ _ => True) ⟨?_, ?_⟩ trivial).1⟩
  · exact fun _ _ _ _ h => h
  · exact fun _ _ _ _ _ h _ => ⟨rfl, h, trivial⟩

end Walk

end Dwarf

end ElfScope
