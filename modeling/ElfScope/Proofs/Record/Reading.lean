import Mathlib
import ElfScope.Record.Reading
import ElfScope.Record.Writing
import ElfScope.Proofs.Text.Utf8

/-! # Records read back

Every record is read from its own JSON value, with all of its fields, in whatever way records are
nested in it.
-/
namespace ElfScope

@[simp] theorem Text.ofString_inj {s t : String} : Text.ofString s = Text.ofString t ↔ s = t := by
  have hc (a b : Char) (h : CodePoint.ofChar a = CodePoint.ofChar b) : a = b :=
    Char.toNat_inj.mp (congrArg CodePoint.value h)
  refine ⟨fun h => String.toList_inj.mp (List.map_injective_iff.mpr hc h), congrArg _⟩

/-- Each member is found by its own value, which is a text without surrogates. -/
class Enumeration.Lawful (α : Type) [Enumeration α] : Prop where
  ofValue?_value : ∀ a : α, ofValue? (value a) = some a
  scalar_value : ∀ a : α, (value a).Scalar

instance : Enumeration.Lawful Architecture where
  ofValue?_value a := by cases a <;> decide +kernel
  scalar_value a := by cases a <;> exact Text.scalar_ofString _

instance : Enumeration.Lawful FileKind where
  ofValue?_value a := by cases a <;> decide +kernel
  scalar_value a := by cases a <;> exact Text.scalar_ofString _

instance : Enumeration.Lawful ByteOrder where
  ofValue?_value a := by cases a <;> decide +kernel
  scalar_value a := by cases a <;> exact Text.scalar_ofString _

instance : Enumeration.Lawful TypeKind where
  ofValue?_value a := by cases a <;> decide +kernel
  scalar_value a := by cases a <;> exact Text.scalar_ofString _

instance : Enumeration.Lawful Scope where
  ofValue?_value a := by cases a <;> decide +kernel
  scalar_value a := by cases a <;> exact Text.scalar_ofString _

namespace Json

theorem field_of_field? {fs : List (Text × Json)} {key : Text} {v : Json}
    (h : field? key fs = some v) : ∃ p, field (.object fs) key = .ok p ∧ p.val = v := by
  unfold field
  simp only
  split
  · next w hw =>
    cases h.symm.trans hw
    exact ⟨_, rfl, rfl⟩
  · next hw => simp [hw] at h

theorem listField_of_field? {fs : List (Text × Json)} {key : Text} {vs : List Json}
    (h : field? key fs = some (.array vs)) :
    ∃ ps, listField (.object fs) key = .ok ps ∧ ps.map Subtype.val = vs := by
  obtain ⟨⟨v, hv⟩, hf, rfl⟩ := field_of_field? h
  refine ⟨_, by rw [listField, hf]; rfl, ?_⟩
  simp [List.map_map, Function.comp_def]

section Steps
variable {α β : Type} {r : Except RecordError β}

theorem bind_of_ok {x : Except RecordError α} {a : α} {k : α → Except RecordError β}
    (hx : x = .ok a) (hk : k a = r) : (x >>= k) = r := by
  subst hx
  exact hk

/-- One step of a reader: a field that is there. -/
theorem bind_field {fs : List (Text × Json)} {key : Text} (v : Json)
    {k : Part (.object fs) → Except RecordError β} (h : field? key fs = some v)
    (hk : ∀ p, p.val = v → k p = r) : (field (.object fs) key >>= k) = r := by
  obtain ⟨p, hp, hv⟩ := field_of_field? h
  exact bind_of_ok hp (hk p hv)

/-- One step of a reader: a field that is there and holds a list. -/
theorem bind_listField {fs : List (Text × Json)} {key : Text} (vs : List Json)
    {k : List (Part (.object fs)) → Except RecordError β} (h : field? key fs = some (.array vs))
    (hk : ∀ ps, ps.map Subtype.val = vs → k ps = r) : (listField (.object fs) key >>= k) = r := by
  obtain ⟨ps, hp, hv⟩ := listField_of_field? h
  exact bind_of_ok hp (hk ps hv)

end Steps

/-- A reader of items takes them from a field as from the list itself. -/
theorem mapM_parts {α : Type} {j : Json} {ps : List (Part j)} {vs : List Json}
    (h : ps.map Subtype.val = vs) (read : Json → Except RecordError α) :
    ps.mapM (fun p => read p.val) = vs.mapM read := by
  rw [← h, List.mapM_map]
  rfl

theorem mapM_written {α : Type} {read : Json → Except RecordError α} {write : α → Json}
    {xs : List α} (h : ∀ x ∈ xs, read (write x) = .ok x) : (xs.map write).mapM read = .ok xs := by
  induction xs with
  | nil => rfl
  | cons x xs ih =>
    have hxs := ih fun y hy => h y (List.mem_cons_of_mem _ hy)
    rw [List.map_cons, List.mapM_cons, h x List.mem_cons_self, hxs]
    rfl

end Json

namespace Check

theorem wordOf_natCast (name : Text) {n : Nat} (h : n < 2 ^ 64) :
    wordOf name n = .ok (UInt64.ofNat n) := by
  have hlow : ¬((n : Int) < 0) := by omega
  have hhigh : ¬(maxWord < (n : Int)) := by simp only [maxWord]; omega
  simp [wordOf, inRange, hlow, hhigh, bind, Except.bind, pure, Except.pure]

theorem wordOf_toNat (name : Text) (n : UInt64) : wordOf name n.toNat = .ok n := by
  rw [wordOf_natCast name n.toNat_lt, UInt64.ofNat_toNat]

theorem word_ofWord (name : Text) (n : UInt64) : word name (Json.ofWord n) = .ok n :=
  wordOf_toNat name n

theorem optional_ofOption {α : Type} {check : Json → Except RecordError α} {write : α → Json}
    {o : Option α} (hn : ∀ a ∈ o, write a ≠ .null) (h : ∀ a ∈ o, check (write a) = .ok a) :
    optional check (Json.ofOption write o) = .ok o := by
  cases o with
  | none => rfl
  | some a =>
    have ha := h a rfl
    have hne := hn a rfl
    rw [Json.ofOption, optional.eq_2 _ _ hne, ha]
    rfl

theorem optional_word (name : Text) (o : Option UInt64) :
    optional (word name) (Json.ofOption Json.ofWord o) = .ok o :=
  optional_ofOption (fun _ _ => by simp [Json.ofWord]) fun n _ => word_ofWord name n

theorem member_ofMember {α : Type} [Enumeration α] [Enumeration.Lawful α] (a : α) :
    member (Json.ofMember a) = .ok a := by
  simp only [member, Json.ofMember, Enumeration.Lawful.ofValue?_value]

theorem mapM_text_written (name : Text) (ts : List Text) (k : Nat) :
    ((ts.map Json.string).zipIdx k).mapM (fun (v, index) => text (itemName name index) v) =
      .ok ts := by
  induction ts generalizing k with
  | nil => rfl
  | cons t ts ih =>
    rw [List.map_cons, List.zipIdx_cons, List.mapM_cons, ih]
    rfl

theorem texts_written (name : Text) (ts : List Text) : texts name (ts.map .string) = .ok ts :=
  mapM_text_written name ts 0

theorem byte_written (b : UInt8) : byte (.int b.toNat) = .ok b := by
  have hb := b.toNat_lt
  simp only [byte, if_pos (show (0 : Int) ≤ b.toNat ∧ (b.toNat : Int) < 256 by omega),
    Int.toNat_natCast, UInt8.ofNat_toNat]

end Check

open Json (bind_of_ok bind_field bind_listField mapM_parts mapM_written)

theorem membersToJson_eq (ms : List MemberInfo) : membersToJson ms = ms.map (·.toJson) := by
  induction ms with
  | nil => rfl
  | cons m ms ih => rw [membersToJson, ih, List.map_cons]

theorem TypeInfo.ofJson_of_members {members : List MemberInfo}
    (h : ∀ m ∈ members, MemberInfo.ofJson m.toJson = .ok m) (name : Text) (size : Option UInt64)
    (kind : TypeKind) :
    TypeInfo.ofJson (TypeInfo.mk name size kind members).toJson =
      .ok (.mk name size kind members) := by
  rw [TypeInfo.toJson, membersToJson_eq, TypeInfo.ofJson]
  refine bind_field (.string name) (by simp [Json.field?]) ?_
  intro n hn
  refine bind_field (.ofOption .ofWord size) (by simp [Json.field?]) ?_
  intro s hs
  refine bind_field (.ofMember kind) (by simp [Json.field?]) ?_
  intro k hk
  refine bind_of_ok (hk ▸ Check.member_ofMember kind) ?_
  refine bind_listField _ (by simp [Json.field?]; rfl) ?_
  intro ms hms
  refine bind_of_ok ((mapM_parts hms _).trans (mapM_written h)) ?_
  rw [hn, hs]
  exact bind_of_ok rfl (bind_of_ok (Check.optional_word _ size) rfl)

theorem MemberInfo.ofJson_of_type {typeInfo : TypeInfo}
    (h : TypeInfo.ofJson typeInfo.toJson = .ok typeInfo) (name : Text) (offset : UInt64) :
    MemberInfo.ofJson (MemberInfo.mk name offset typeInfo).toJson =
      .ok (.mk name offset typeInfo) := by
  rw [MemberInfo.toJson, MemberInfo.ofJson]
  refine bind_field (.string name) (by simp [Json.field?]) ?_
  intro n hn
  refine bind_field (.ofWord offset) (by simp [Json.field?]) ?_
  intro o ho
  refine bind_field typeInfo.toJson (by simp [Json.field?]) ?_
  intro t ht
  refine bind_of_ok (ht ▸ h) ?_
  rw [hn, ho]
  exact bind_of_ok rfl (bind_of_ok (Check.word_ofWord _ offset) rfl)

mutual

theorem TypeInfo.ofJson_toJson : ∀ t : TypeInfo, TypeInfo.ofJson t.toJson = .ok t
  | .mk name size kind members =>
    TypeInfo.ofJson_of_members (membersOfJson_toJson members) name size kind

theorem MemberInfo.ofJson_toJson : ∀ m : MemberInfo, MemberInfo.ofJson m.toJson = .ok m
  | .mk name offset typeInfo =>
    MemberInfo.ofJson_of_type (TypeInfo.ofJson_toJson typeInfo) name offset

theorem membersOfJson_toJson : ∀ ms : List MemberInfo, ∀ m ∈ ms, MemberInfo.ofJson m.toJson = .ok m
  | [], _, h => absurd h List.not_mem_nil
  | m :: ms, n, h => by
    rcases List.mem_cons.mp h with h | h
    · rw [h]
      exact MemberInfo.ofJson_toJson m
    · exact membersOfJson_toJson ms n h

end

theorem VariableInfo.ofJson_toJson (v : VariableInfo) : VariableInfo.ofJson v.toJson = .ok v := by
  obtain ⟨name, address, offset, typeInfo, scope⟩ := v
  unfold VariableInfo.ofJson VariableInfo.toJson
  refine bind_field (.string name) (by simp [Json.field?]) ?_
  intro n hn
  refine bind_field (.ofOption .ofWord address) (by simp [Json.field?]) ?_
  intro a ha
  refine bind_field (.ofOption .int offset) (by simp [Json.field?]) ?_
  intro o ho
  refine bind_field typeInfo.toJson (by simp [Json.field?]) ?_
  intro t ht
  refine bind_of_ok (ht ▸ typeInfo.ofJson_toJson) ?_
  refine bind_field (.ofMember scope) (by simp [Json.field?]) ?_
  intro s hs
  refine bind_of_ok (hs ▸ Check.member_ofMember scope) ?_
  rw [hn, ha, ho]
  refine bind_of_ok rfl (bind_of_ok (Check.optional_word _ address) ?_)
  exact bind_of_ok (Check.optional_ofOption (fun _ _ => by simp) fun _ _ => rfl) rfl

theorem TypeInfo.toJson_ne_null (t : TypeInfo) : t.toJson ≠ .null := by
  cases t
  simp [TypeInfo.toJson]

theorem FunctionInfo.ofJson_toJson (f : FunctionInfo) : FunctionInfo.ofJson f.toJson = .ok f := by
  obtain ⟨name, address, size, parameters, returnType⟩ := f
  unfold FunctionInfo.ofJson FunctionInfo.toJson
  refine bind_field (.ofOption (·.toJson) returnType) (by simp [Json.field?]) ?_
  intro r hr
  refine bind_field (.string name) (by simp [Json.field?]) ?_
  intro n hn
  refine bind_field (.ofWord address) (by simp [Json.field?]) ?_
  intro a ha
  refine bind_field (.ofOption .ofWord size) (by simp [Json.field?]) ?_
  intro s hs
  refine bind_listField _ (by simp [Json.field?]; rfl) ?_
  intro ps hps
  refine bind_of_ok ((mapM_parts hps _).trans (mapM_written fun p _ => p.ofJson_toJson)) ?_
  rw [hr, hn, ha, hs]
  refine bind_of_ok (Check.optional_ofOption (fun t _ => t.toJson_ne_null)
    fun t _ => t.ofJson_toJson) ?_
  refine bind_of_ok rfl (bind_of_ok (Check.word_ofWord _ address) ?_)
  exact bind_of_ok (Check.optional_word _ size) rfl

theorem ElfInfo.ofJson_toJson (e : ElfInfo) : ElfInfo.ofJson e.toJson = .ok e := by
  obtain ⟨architecture, entryPoint, sections, fileType, byteOrder, functions, globals, types⟩ := e
  unfold ElfInfo.ofJson ElfInfo.toJson
  refine bind_field (.ofMember architecture) (by simp [Json.field?]) ?_
  intro a ha
  refine bind_of_ok (ha ▸ Check.member_ofMember architecture) ?_
  refine bind_field (.ofWord entryPoint) (by simp [Json.field?]) ?_
  intro p hp
  refine bind_listField (sections.map .string) (by simp [Json.field?]) ?_
  intro ss hss
  refine bind_field (.ofMember fileType) (by simp [Json.field?]) ?_
  intro k hk
  refine bind_of_ok (hk ▸ Check.member_ofMember fileType) ?_
  refine bind_field (.ofMember byteOrder) (by simp [Json.field?]) ?_
  intro b hb
  refine bind_of_ok (hb ▸ Check.member_ofMember byteOrder) ?_
  refine bind_listField _ (by simp [Json.field?]; rfl) ?_
  intro fs hfs
  refine bind_of_ok ((mapM_parts hfs _).trans (mapM_written fun f _ => f.ofJson_toJson)) ?_
  refine bind_listField _ (by simp [Json.field?]; rfl) ?_
  intro vs hvs
  refine bind_of_ok ((mapM_parts hvs _).trans (mapM_written fun v _ => v.ofJson_toJson)) ?_
  refine bind_listField _ (by simp [Json.field?]; rfl) ?_
  intro ts hts
  refine bind_of_ok ((mapM_parts hts _).trans (mapM_written fun t _ => t.ofJson_toJson)) ?_
  rw [hp]
  refine bind_of_ok (Check.word_ofWord _ entryPoint) ?_
  exact bind_of_ok ((congrArg _ hss).trans (Check.texts_written _ sections)) rfl

theorem ThreadInfo.ofJson_toJson (t : ThreadInfo) : ThreadInfo.ofJson t.toJson = .ok t := by
  obtain ⟨id, registers⟩ := t
  unfold ThreadInfo.ofJson ThreadInfo.toJson
  refine bind_field (.int id) (by simp [Json.field?]) ?_
  intro n hn
  refine bind_listField _ (by simp [Json.field?, Json.ofBytes]; rfl) ?_
  intro bs hbs
  refine bind_of_ok ((mapM_parts hbs _).trans (mapM_written fun b _ => Check.byte_written b)) ?_
  have hid : Check.integerInRange "thread_id" (some 0) none (.int id) = .ok (id : Int) := by
    have hlow : ¬(id : Int) < 0 := by omega
    simp [Check.integerInRange, Check.integer, Check.inRange, hlow, bind, Except.bind, pure,
      Except.pure]
  exact bind_of_ok (hn ▸ hid) rfl

theorem CoreInfo.ofJson_toJson (c : CoreInfo) : CoreInfo.ofJson c.toJson = .ok c := by
  obtain ⟨architecture, first, others⟩ := c
  unfold CoreInfo.ofJson CoreInfo.toJson
  refine bind_field (.ofMember architecture) (by simp [Json.field?]) ?_
  intro a ha
  refine bind_of_ok (ha ▸ Check.member_ofMember architecture) ?_
  refine bind_listField _ (by simp [Json.field?]; rfl) ?_
  intro ts hts
  exact bind_of_ok ((mapM_parts hts _).trans (mapM_written fun t _ => t.ofJson_toJson)) rfl

theorem AnalysisResult.ofJson_toJson (r : AnalysisResult) : ofJson r.toJson = .ok r := by
  obtain ⟨elfInfo, coreInfo⟩ := r
  have helf : Check.optional ElfInfo.ofJson (.ofOption (·.toJson) elfInfo) = .ok elfInfo :=
    Check.optional_ofOption (fun e _ => by simp [ElfInfo.toJson]) fun e _ => e.ofJson_toJson
  have hcore : Check.optional CoreInfo.ofJson (.ofOption (·.toJson) coreInfo) = .ok coreInfo :=
    Check.optional_ofOption (fun c _ => by simp [CoreInfo.toJson]) fun c _ => c.ofJson_toJson
  unfold ofJson toJson
  simp only [Json.field?, Text.ofString_inj, String.reduceEq, if_false, if_true, Option.getD_some]
  exact bind_of_ok helf (bind_of_ok hcore rfl)

end ElfScope
