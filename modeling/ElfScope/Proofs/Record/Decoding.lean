import Mathlib
import ElfScope.Proofs.Bytes.Results
import ElfScope.Proofs.Record.Grammar
import ElfScope.Proofs.Record.Reading

/-! # Readers and shapes

A reader decodes a shape when it takes the values of the shape and no others, and what it takes is
written as the cleaned value. The readers of the fields decode theirs, and from its fields a record
decodes the grammar of its class.
-/
namespace ElfScope

open Json (field? part field listField Part)

/-- A reader takes a value where it has the shape, and what it takes is written as the value
cleaned. -/
structure Decodes {α : Type} (read : Json → Except RecordError α) (write : α → Json) (s : Shape)
    (j : Json) : Prop where
  complete : s.Accepts j → ∃ a, read j = .ok a
  sound : ∀ a, read j = .ok a → s.Accepts j ∧ write a = s.clean j

/-- A conversion after the reader, which the writing takes back. -/
theorem Decodes.map {α β : Type} {read : Json → Except RecordError α} {write : α → Json}
    {s : Shape} {j : Json} (h : Decodes read write s j) (f : α → β) {write' : β → Json}
    (hf : ∀ a, read j = .ok a → write' (f a) = write a) :
    Decodes (fun j => f <$> read j) write' s j := by
  constructor
  · intro hs
    obtain ⟨a, ha⟩ := h.complete hs
    exact ⟨f a, by rw [ha]; rfl⟩
  · intro b hb
    cases ha : read j with
    | error e =>
      rw [ha] at hb
      cases hb
    | ok a =>
      rw [ha] at hb
      cases hb
      obtain ⟨haccepts, hwrite⟩ := h.sound a ha
      exact ⟨haccepts, (hf a ha).trans hwrite⟩

/-! ### Values -/

namespace Check

theorem decodes_text (name : Text) (j : Json) : Decodes (text name) .string .text j := by
  constructor
  · rintro ⟨t⟩
    exact ⟨t, rfl⟩
  · intro t h
    cases j with
    | string u =>
      cases h
      exact ⟨.text t, (Shape.clean_text t).symm⟩
    | _ => cases h

theorem text_eq_ok {name : Text} {j : Json} {t : Text} : text name j = .ok t ↔ j = .string t := by
  cases j <;> simp [text]

theorem texts_eq_ok {name : Text} {vs : List Json} {ts : List Text} :
    texts name vs = .ok ts ↔ vs.mapM (text name) = .ok ts := by
  have hfrom (k : Nat) : (vs.zipIdx k).mapM (fun item => text (itemName name item.2) item.1) =
      .ok ts ↔ vs.mapM (text name) = .ok ts := by
    induction vs generalizing k ts with
    | nil => rfl
    | cons v vs ih =>
      simp only [List.zipIdx_cons, List.mapM_cons, Except.bind_eq_ok, text_eq_ok, ih]
  exact hfrom 0

theorem ite_error_eq_ok {α : Type} {p : Prop} [Decidable p] {e : RecordError}
    {x : Except RecordError α} {a : α} :
    (if p then .error e else x) = .ok a ↔ ¬p ∧ x = .ok a := by
  by_cases h : p <;> simp [h]

theorem inRange_eq_ok {name : Text} {minimum maximum : Option Int} {n : Int} {u : Unit} :
    inRange name minimum maximum n = .ok u ↔
      (∀ m ∈ minimum, m ≤ n) ∧ ∀ m ∈ maximum, n ≤ m := by
  cases minimum <;> cases maximum <;>
    simp [inRange, throw, throwThe, MonadExceptOf.throw, bind, Except.bind, pure, Except.pure,
      ite_error_eq_ok]

theorem integer_eq_ok {name : Text} {j : Json} {n : Int} :
    integer name j = .ok n ↔ j = .int n := by
  cases j <;> simp [integer]

theorem integerInRange_eq_ok {name : Text} {minimum maximum : Option Int} {j : Json} {n : Int} :
    integerInRange name minimum maximum j = .ok n ↔
      j = .int n ∧ (∀ m ∈ minimum, m ≤ n) ∧ ∀ m ∈ maximum, n ≤ m := by
  simp only [integerInRange, Except.bind_eq_ok, integer_eq_ok, inRange_eq_ok]
  constructor
  · rintro ⟨k, rfl, -, hrange, heq⟩
    cases heq
    exact ⟨rfl, hrange⟩
  · rintro ⟨rfl, hrange⟩
    exact ⟨n, rfl, (), hrange, rfl⟩

theorem decodes_integerInRange (name : Text) (minimum maximum : Option Int) (j : Json) :
    Decodes (integerInRange name minimum maximum) .int (.integer minimum maximum) j := by
  constructor
  · intro hs
    cases hs with
    | integer low high => exact ⟨_, integerInRange_eq_ok.mpr ⟨rfl, low, high⟩⟩
  · intro n h
    obtain ⟨rfl, low, high⟩ := integerInRange_eq_ok.mp h
    exact ⟨.integer low high, (Shape.clean_integer _ _ n).symm⟩

theorem decodes_integer (name : Text) (j : Json) :
    Decodes (integer name) .int (.integer none none) j := by
  have heq : integer name j = integerInRange name none none j := by
    cases j <;> rfl
  obtain ⟨complete, sound⟩ := decodes_integerInRange name none none j
  rw [← heq] at complete sound
  exact ⟨complete, sound⟩

theorem decodes_word (name : Text) (j : Json) : Decodes (word name) Json.ofWord .word j := by
  have hread : word name = fun j =>
      (fun n : Int => UInt64.ofNat n.toNat) <$> integerInRange name (some 0) (some maxWord) j := by
    funext j
    cases j <;> simp only [word, wordOf, integerInRange, integer, map_bind, map_pure]
  rw [hread]
  apply (decodes_integerInRange name (some 0) (some maxWord) j).map
  intro n hn
  obtain ⟨rfl, low, high⟩ := integerInRange_eq_ok.mp hn
  have hlow := low 0 rfl
  have hhigh := high maxWord rfl
  simp only [maxWord] at hhigh
  simp only [Json.ofWord, UInt64.toNat_ofNat', Json.int.injEq]
  omega

theorem decodes_optional {α : Type} {read : Json → Except RecordError α} {write : α → Json}
    {s : Shape} {j : Json} (h : Decodes read write s j) :
    Decodes (optional read) (Json.ofOption write) (.optional s) j := by
  by_cases hj : j = .null
  · subst hj
    constructor
    · intro _
      exact ⟨none, rfl⟩
    · intro a ha
      cases ha
      exact ⟨.null s, (Shape.clean_null s).symm⟩
  · have hread : optional read j = some <$> read j := optional.eq_2 read j hj
    constructor
    · intro hs
      cases hs with
      | null => exact absurd rfl hj
      | given hs =>
        obtain ⟨a, ha⟩ := h.complete hs
        exact ⟨some a, by rw [hread, ha]; rfl⟩
    · intro o ho
      rw [hread] at ho
      cases ha : read j with
      | error e =>
        rw [ha] at ho
        cases ho
      | ok a =>
        rw [ha] at ho
        cases ho
        obtain ⟨haccepts, hwrite⟩ := h.sound a ha
        exact ⟨.given haccepts, hwrite.trans (Shape.clean_given s hj).symm⟩

theorem decodes_byte (j : Json) : Decodes byte (fun b => .int b.toNat) .byte j := by
  constructor
  · intro hs
    cases hs with
    | byte low high => exact ⟨_, if_pos ⟨low, by omega⟩⟩
    | flag b => exact ⟨_, rfl⟩
  · intro b hb
    cases j with
    | int n =>
      by_cases hn : 0 ≤ n ∧ n < 256
      · rw [byte, if_pos hn] at hb
        cases hb
        obtain ⟨low, high⟩ := hn
        refine ⟨.byte low (by omega), ?_⟩
        rw [Shape.clean_byte, UInt8.toNat_ofNat', Json.int.injEq]
        omega
      · rw [byte, if_neg hn] at hb
        cases hb
    | bool t =>
      cases hb
      refine ⟨.flag t, ?_⟩
      cases t <;> simp
    | _ => cases hb

theorem member_eq_ok {α : Type} [Enumeration α] {j : Json} {a : α} :
    member j = .ok a ↔ ∃ t, j = .string t ∧ Enumeration.ofValue? t = some a := by
  cases j with
  | string t => cases h : (Enumeration.ofValue? t : Option α) <;> simp [member, h]
  | _ => simp [member]

theorem decodes_member {α : Type} [Enumeration α] (j : Json) :
    Decodes (member : Json → Except RecordError α) Json.ofMember (.member α) j := by
  constructor
  · intro hs
    cases hs with
    | oneOf ht =>
      obtain ⟨a, ha, rfl⟩ := List.mem_map.mp ht
      cases hfound : (Enumeration.ofValue? (Enumeration.value a) : Option α) with
      | none =>
        have hnone := List.find?_eq_none.mp hfound a ha
        simp at hnone
      | some b => exact ⟨b, member_eq_ok.mpr ⟨_, rfl, hfound⟩⟩
  · intro a h
    obtain ⟨t, rfl, hfound⟩ := member_eq_ok.mp h
    have hvalue : Enumeration.value a = t := by simpa using List.find?_some hfound
    have hmem : a ∈ (Enumeration.all : List α) := List.mem_of_find?_eq_some hfound
    refine ⟨.oneOf (List.mem_map.mpr ⟨a, hmem, hvalue⟩), ?_⟩
    rw [Shape.member, Shape.clean_oneOf, Json.ofMember, hvalue]

end Check

/-! ### Lists -/

section Lists
variable {α : Type} {read : Json → Except RecordError α} {write : α → Json} {s : Shape}

theorem exists_mapM {vs : List Json} (h : ∀ v ∈ vs, ∃ a, read v = .ok a) :
    ∃ as, vs.mapM read = .ok as := by
  induction vs with
  | nil => exact ⟨[], rfl⟩
  | cons v vs ih =>
    obtain ⟨a, ha⟩ := h v List.mem_cons_self
    obtain ⟨as, has⟩ := ih fun w hw => h w (List.mem_cons_of_mem _ hw)
    refine ⟨a :: as, ?_⟩
    rw [List.mapM_cons, ha, has]
    rfl

theorem mapM_sound {vs : List Json} {as : List α} (h : ∀ v ∈ vs, Decodes read write s v)
    (hr : vs.mapM read = .ok as) :
    (∀ v ∈ vs, s.Accepts v) ∧ as.map write = vs.map s.clean := by
  induction vs generalizing as with
  | nil =>
    cases hr
    simp
  | cons v vs ih =>
    rw [List.mapM_cons] at hr
    obtain ⟨a, ha, hr⟩ := Except.bind_eq_ok.mp hr
    obtain ⟨bs, hbs, heq⟩ := Except.bind_eq_ok.mp hr
    cases heq
    obtain ⟨haccepts, hwrite⟩ := (h v List.mem_cons_self).sound a ha
    obtain ⟨hall, hmap⟩ := ih (fun w hw => h w (List.mem_cons_of_mem _ hw)) hbs
    exact ⟨List.forall_mem_cons.mpr ⟨haccepts, hall⟩, by simp [hwrite, hmap]⟩

/-- The reader of a field that holds a list. -/
def readList (key : Text) (read : Json → Except RecordError α) : Json → Except RecordError (List α)
  | .array vs => vs.mapM read
  | _ => .error (.notAList key)

theorem decodes_list (key : Text) {j : Json}
    (h : ∀ v, sizeOf v < sizeOf j → Decodes read write s v) :
    Decodes (readList key read) (fun as => .array (as.map write)) (.list 0 s) j := by
  cases j with
  | array vs =>
    have hvs : ∀ v ∈ vs, Decodes read write s v := by
      intro v hv
      have hlt := List.sizeOf_lt_of_mem hv
      apply h
      simp only [Json.array.sizeOf_spec]
      omega
    constructor
    · intro hs
      cases hs with
      | list _ items => exact exists_mapM fun v hv => (hvs v hv).complete (items v hv)
    · intro as has
      obtain ⟨hall, hmap⟩ := mapM_sound hvs has
      exact ⟨.list (Nat.zero_le _) hall, by rw [hmap, Shape.clean_list]⟩
  | _ =>
    constructor
    · nofun
    · nofun

/-- A list that is not empty, as the threads of a core dump. -/
def nonempty : List α → Except RecordError (List α)
  | [] => .error .noThreads
  | as => .ok as

theorem nonempty_eq_ok {as bs : List α} : nonempty as = .ok bs ↔ as = bs ∧ as ≠ [] := by
  cases as <;> simp [nonempty]

theorem Decodes.nonempty {j : Json} {read : Json → Except RecordError (List α)}
    (h : Decodes read (fun as => .array (as.map write)) (.list 0 s) j) :
    Decodes (fun v => read v >>= ElfScope.nonempty) (fun as => .array (as.map write))
      (.list 1 s) j := by
  have hlength {vs : List Json} {as : List α} (hj : j = .array vs) (has : read j = .ok as) :
      as.length = vs.length := by
    have hclean := (h.sound as has).2
    rw [hj, Shape.clean_list, Json.array.injEq] at hclean
    simpa using congrArg List.length hclean
  constructor
  · intro hs
    cases hs with
    | @list _ _ vs length items =>
      obtain ⟨as, has⟩ := h.complete (.list (Nat.zero_le _) items)
      have hne : as ≠ [] := by
        rintro rfl
        have := hlength rfl has
        simp only [List.length_nil] at this
        omega
      exact ⟨as, Except.bind_eq_ok.mpr ⟨as, has, nonempty_eq_ok.mpr ⟨rfl, hne⟩⟩⟩
  · intro bs hbs
    obtain ⟨as, has, heq⟩ := Except.bind_eq_ok.mp hbs
    obtain ⟨rfl, hne⟩ := nonempty_eq_ok.mp heq
    obtain ⟨haccepts, hwrite⟩ := h.sound as has
    cases haccepts with
    | list _ items =>
      have hpos := List.length_pos_iff.mpr hne
      refine ⟨.list (hlength rfl has ▸ hpos) items, ?_⟩
      rw [hwrite, Shape.clean_list, Shape.clean_list]

end Lists

/-! ### Fields -/

section Fields
variable {fs : List (Text × Json)} {key : Text} {α : Type} {read : Json → Except RecordError α}

/-- What a reader makes of the value at a key. -/
def Takes (fs : List (Text × Json)) (key : Text) (read : Json → Except RecordError α) (a : α) :
    Prop :=
  ∃ v, field? key fs = some v ∧ read v = .ok a

theorem Json.sizeOf_field?_lt {v : Json} (h : field? key fs = some v) :
    sizeOf v < sizeOf (Json.object fs) := by
  rw [← part_of_field? h]
  exact sizeOf_part_lt key fs

theorem field_eq_ok {p : Part (.object fs)} :
    field (.object fs) key = .ok p ↔ field? key fs = some p.val := by
  constructor
  · intro h
    unfold field at h
    simp only at h
    split at h
    · next v hv =>
      cases h
      exact hv
    · cases h
  · intro h
    obtain ⟨q, hq, hv⟩ := Json.field_of_field? h
    rw [hq, Subtype.ext hv]

theorem exists_field {q : Part (.object fs) → Prop} :
    (∃ p, field (.object fs) key = .ok p ∧ q p) ↔
      ∃ v, ∃ h : field? key fs = some v, q ⟨v, Json.sizeOf_field?_lt h⟩ := by
  constructor
  · rintro ⟨p, hp, hq⟩
    exact ⟨p.val, field_eq_ok.mp hp, hq⟩
  · rintro ⟨v, hv, hq⟩
    exact ⟨_, field_eq_ok.mpr hv, hq⟩

theorem exists_listField {q : List α → Prop} :
    (∃ ps, listField (.object fs) key = .ok ps ∧
      ∃ as, ps.mapM (fun p => read p.val) = .ok as ∧ q as) ↔
      ∃ v, field? key fs = some v ∧ ∃ as, readList key read v = .ok as ∧ q as := by
  constructor
  · rintro ⟨ps, hps, as, has, hq⟩
    obtain ⟨⟨v, hv⟩, hf, h⟩ := Except.bind_eq_ok.mp hps
    have hfield := field_eq_ok.mp hf
    cases v with
    | array vs =>
      obtain ⟨rs, hrs, hvs⟩ := Json.listField_of_field? hfield
      cases hrs.symm.trans hps
      exact ⟨.array vs, hfield, as, (Json.mapM_parts hvs read).symm.trans has, hq⟩
    | _ => cases h
  · rintro ⟨v, hv, as, has, hq⟩
    cases v with
    | array vs =>
      obtain ⟨ps, hps, hvs⟩ := Json.listField_of_field? hv
      exact ⟨ps, hps, as, (Json.mapM_parts hvs read).trans has, hq⟩
    | _ => cases has

/-- The value at a key has the shape, and it is written out as it was cleaned. -/
def Writes (fs : List (Text × Json)) (f : Text × Shape) (g : Text × Json) : Prop :=
  g.1 = f.1 ∧ ∃ v, field? f.1 fs = some v ∧ f.2.Accepts v ∧ g.2 = f.2.clean v

variable {write : α → Json} {s : Shape} {c : RecordClass}

theorem Takes.writes {a : α} (h : Takes fs key read a)
    (hd : ∀ v, sizeOf v < sizeOf (Json.object fs) → Decodes read write s v) :
    Writes fs (key, s) (key, write a) := by
  obtain ⟨v, hv, ha⟩ := h
  obtain ⟨haccepts, hwrite⟩ := (hd v (Json.sizeOf_field?_lt hv)).sound a ha
  exact ⟨rfl, v, hv, haccepts, hwrite⟩

theorem Shape.Accepts.takes (h : (Shape.record c).Accepts (.object fs)) (hc : c.Complete)
    (hf : (key, s) ∈ c.fields)
    (hd : ∀ v, sizeOf v < sizeOf (Json.object fs) → Decodes read write s v) :
    ∃ a, Takes fs key read a := by
  cases h with
  | record present fields =>
    obtain ⟨v, hv⟩ := present hc (key, s) hf
    obtain ⟨a, ha⟩ := (hd v (Json.sizeOf_field?_lt hv)).complete (fields (key, s) hf v hv)
    exact ⟨a, v, hv, ha⟩

theorem clean_of_writes {gs : List (Text × Json)} {ss : List (Text × Shape)}
    (h : List.Forall₂ (Writes fs) ss gs) :
    (∀ f ∈ ss, ∃ v, field? f.1 fs = some v ∧ f.2.Accepts v) ∧
      gs = ss.map fun f => (f.1, f.2.clean (part f.1 fs)) := by
  induction h with
  | nil => simp
  | @cons f g ss gs hfg _ ih =>
    obtain ⟨hkey, v, hv, haccepts, hclean⟩ := hfg
    obtain ⟨hall, rfl⟩ := ih
    refine ⟨List.forall_mem_cons.mpr ⟨⟨v, hv, haccepts⟩, hall⟩, ?_⟩
    rw [List.map_cons, Json.part_of_field? hv, ← hclean, ← hkey]

/-- A record is read where its fields are, whatever other keys there are. -/
theorem decodes_record {j : Json} (hobject : ∀ a, read j = .ok a → ∃ fs, j = .object fs)
    (complete : ∀ fs, j = .object fs → (Shape.record c).Accepts j → ∃ a, read j = .ok a)
    (sound : ∀ fs a, j = .object fs → read j = .ok a →
      ∃ gs, write a = .object gs ∧ List.Forall₂ (Writes fs) c.fields gs) :
    Decodes read write (.record c) j := by
  constructor
  · intro hs
    cases hs with
    | record present fields => exact complete _ rfl (.record present fields)
  · intro a ha
    obtain ⟨fs, rfl⟩ := hobject a ha
    obtain ⟨gs, hwrite, hwrites⟩ := sound fs a rfl ha
    obtain ⟨hall, heq⟩ := clean_of_writes hwrites
    constructor
    · apply Shape.Accepts.record
      · intro _ f hf
        obtain ⟨v, hv, -⟩ := hall f hf
        exact ⟨v, hv⟩
      · intro f hf v hv
        obtain ⟨w, hw, haccepts⟩ := hall f hf
        cases hv.symm.trans hw
        exact haccepts
    · rw [hwrite, heq, Shape.clean_record]

theorem Shape.Accepts.part (h : (Shape.record c).Accepts (.object fs))
    (hf : (key, .optional s) ∈ c.fields) : (Shape.optional s).Accepts (part key fs) := by
  cases h with
  | record _ fields =>
    cases hv : field? key fs with
    | none =>
      rw [Json.part, hv]
      exact .null s
    | some v =>
      rw [Json.part_of_field? hv]
      exact fields (key, .optional s) hf v hv

theorem accepts_of_parts (hc : ¬c.Complete) (h : ∀ f ∈ c.fields, f.2.Accepts (part f.1 fs)) :
    (Shape.record c).Accepts (.object fs) := by
  apply Shape.Accepts.record
  · intro hcomplete
    exact absurd hcomplete hc
  · intro f hf v hv
    rw [← Json.part_of_field? hv]
    exact h f hf

end Fields

end ElfScope
