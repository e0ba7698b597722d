import Mathlib
import ElfScope.Proofs.Json.RoundTrip
import ElfScope.Proofs.Record.Reading

/-! # Documents read back

The document of a result, in one line or with any indent, is read as the result, from its text and
from its bytes. No text of the result may hold a pair of surrogates.
-/
namespace ElfScope

/-! ### What a result holds -/

mutual

def TypeInfo.texts : TypeInfo → List Text
  | .mk name _ _ members => name :: membersTexts members

def MemberInfo.texts : MemberInfo → List Text
  | .mk name _ typeInfo => name :: typeInfo.texts

def membersTexts : List MemberInfo → List Text
  | [] => []
  | m :: ms => m.texts ++ membersTexts ms

end

def VariableInfo.texts (v : VariableInfo) : List Text := v.name :: v.typeInfo.texts

def FunctionInfo.texts (f : FunctionInfo) : List Text :=
  f.name :: (f.parameters.flatMap (·.texts) ++ f.returnType.toList.flatMap (·.texts))

def ElfInfo.texts (e : ElfInfo) : List Text :=
  e.sections ++ e.functions.flatMap (·.texts) ++ e.globals.flatMap (·.texts) ++
    e.types.flatMap (·.texts)

/-- The texts of a result, in all of its records. -/
def AnalysisResult.texts (r : AnalysisResult) : List Text :=
  r.elfInfo.toList.flatMap (·.texts)

def VariableInfo.integers (v : VariableInfo) : List Int := v.offset.toList

def FunctionInfo.integers (f : FunctionInfo) : List Int := f.parameters.flatMap (·.integers)

def ElfInfo.integers (e : ElfInfo) : List Int :=
  e.functions.flatMap (·.integers) ++ e.globals.flatMap (·.integers)

def CoreInfo.integers (c : CoreInfo) : List Int := c.threads.map fun t => t.id

/-- The numbers of a result that no word bounds. -/
def AnalysisResult.integers (r : AnalysisResult) : List Int :=
  r.elfInfo.toList.flatMap (·.integers) ++ r.coreInfo.toList.flatMap (·.integers)

/-- The number has no more digits than the reader takes. -/
def Json.Short (n : Int) : Prop := (Text.ofNat n.natAbs).length ≤ Json.maxIntegerDigits

instance (n : Int) : Decidable (Json.Short n) := inferInstanceAs (Decidable (_ ≤ _))

/-- A result that goes through a document unchanged. -/
structure AnalysisResult.Portable (r : AnalysisResult) : Prop where
  texts : ∀ t ∈ r.texts, t.Unpaired
  integers : ∀ n ∈ r.integers, Json.Short n
  depth : r.toJson.depth ≤ AnalysisResult.maxDepth

/-! ### The value of a result can be read -/

theorem Text.Scalar.unpaired {t : Text} (h : t.Scalar) : t.Unpaired := by
  induction t with
  | nil => exact .nil
  | cons c t ih =>
    have ht := ih fun d hd => h d (List.mem_cons_of_mem _ hd)
    have hc := h c List.mem_cons_self
    refine List.isChain_cons.mpr ⟨fun d _ hs => ?_, ht⟩
    simp only [CodePoint.isHighSurrogate, Bool.and_eq_true, decide_eq_true_eq] at hs
    unfold CodePoint.Scalar at hc
    omega

namespace Json

theorem short_of_lt {n : Nat} (h : n < 10 ^ 20) : Short n := by
  have hlen : (Nat.toDigits 10 n).length ≤ 20 :=
    (Nat.length_toDigits_le_iff (by decide) (by decide)).mpr h
  unfold Short maxIntegerDigits
  rw [Text.ofNat_eq, List.length_map]
  exact hlen.trans (by decide)

theorem legible_ofWord (n : UInt64) : Legible (ofWord n) :=
  .int (short_of_lt (n.toNat_lt.trans (by decide)))

theorem legible_ofBytes (bs : Bytes) : Legible (ofBytes bs) := by
  refine .array ?_
  intro j hj
  obtain ⟨b, -, rfl⟩ := List.mem_map.mp hj
  exact .int (short_of_lt (b.toNat_lt.trans (by decide)))

theorem legible_ofMember {α : Type} [Enumeration α] [Enumeration.Lawful α] (a : α) :
    Legible (ofMember a) :=
  .string (Enumeration.Lawful.scalar_value a).unpaired

theorem legible_ofOption {α : Type} {write : α → Json} {o : Option α}
    (h : ∀ a ∈ o, Legible (write a)) : Legible (ofOption write o) := by
  cases o with
  | none => exact .null
  | some a => exact h a rfl

theorem legible_list {α : Type} {write : α → Json} {xs : List α}
    (h : ∀ x ∈ xs, Legible (write x)) : Legible (.array (xs.map write)) := by
  refine .array ?_
  intro j hj
  obtain ⟨x, hx, rfl⟩ := List.mem_map.mp hj
  exact h x hx

/-- The keys of a record are constants. -/
theorem legible_record (fs : List (String × Json)) (hk : (fs.map Prod.fst).Nodup)
    (h : ∀ f ∈ fs, Legible f.2) :
    Legible (.object (fs.map fun f => (Text.ofString f.1, f.2))) := by
  refine .object ?_ ?_ ?_
  · have hkeys := hk.map fun _ _ => Text.ofString_inj.mp
    rw [List.map_map] at hkeys ⊢
    exact hkeys
  · intro g hg
    obtain ⟨f, -, rfl⟩ := List.mem_map.mp hg
    exact (Text.scalar_ofString f.1).unpaired
  · intro g hg
    obtain ⟨f, hf, rfl⟩ := List.mem_map.mp hg
    exact h f hf

end Json

open Json (Legible legible_ofWord legible_ofBytes legible_ofMember legible_ofOption legible_list
  legible_record)

theorem TypeInfo.legible_of_members {members : List MemberInfo}
    (hm : ∀ m ∈ members, Legible m.toJson) {name : Text} (hn : name.Unpaired)
    (size : Option UInt64) (kind : TypeKind) :
    Legible (TypeInfo.mk name size kind members).toJson := by
  rw [TypeInfo.toJson, membersToJson_eq]
  have hsize : Legible (.ofOption .ofWord size) := legible_ofOption fun n _ => legible_ofWord n
  exact legible_record [("name", .string name), ("size", .ofOption .ofWord size),
    ("kind", .ofMember kind), ("members", .array (members.map (·.toJson)))] (by simp)
    (by simp [Legible.string hn, hsize, legible_ofMember, legible_list hm])

theorem MemberInfo.legible_of_type {typeInfo : TypeInfo} (ht : Legible typeInfo.toJson)
    {name : Text} (hn : name.Unpaired) (offset : UInt64) :
    Legible (MemberInfo.mk name offset typeInfo).toJson := by
  rw [MemberInfo.toJson]
  exact legible_record [("name", .string name), ("offset", .ofWord offset),
    ("type_info", typeInfo.toJson)] (by simp) (by simp [Legible.string hn, legible_ofWord, ht])

mutual

theorem TypeInfo.legible :
    ∀ t : TypeInfo, (∀ text ∈ t.texts, text.Unpaired) → Legible t.toJson
  | .mk name size kind members, h => by
    rw [TypeInfo.texts, List.forall_mem_cons] at h
    exact TypeInfo.legible_of_members (members_legible members h.2) h.1 size kind

theorem MemberInfo.legible :
    ∀ m : MemberInfo, (∀ text ∈ m.texts, text.Unpaired) → Legible m.toJson
  | .mk name offset typeInfo, h => by
    rw [MemberInfo.texts, List.forall_mem_cons] at h
    exact MemberInfo.legible_of_type (TypeInfo.legible typeInfo h.2) h.1 offset

theorem members_legible :
    ∀ ms : List MemberInfo, (∀ text ∈ membersTexts ms, text.Unpaired) → ∀ m ∈ ms, Legible m.toJson
  | [], _, _, hm => absurd hm List.not_mem_nil
  | m :: ms, h, n, hm => by
    rw [membersTexts, List.forall_mem_append] at h
    rcases List.mem_cons.mp hm with hm | hm
    · rw [hm]
      exact MemberInfo.legible m h.1
    · exact members_legible ms h.2 n hm

end

theorem VariableInfo.legible {v : VariableInfo} (ht : ∀ t ∈ v.texts, t.Unpaired)
    (hn : ∀ n ∈ v.integers, Json.Short n) : Legible v.toJson := by
  obtain ⟨name, address, offset, typeInfo, scope⟩ := v
  rw [VariableInfo.texts, List.forall_mem_cons] at ht
  have haddress : Legible (.ofOption .ofWord address) :=
    legible_ofOption fun n _ => legible_ofWord n
  have hoffset : Legible (.ofOption .int offset) :=
    legible_ofOption fun n h => .int (hn n (Option.mem_toList.mpr h))
  exact legible_record [("name", .string name), ("address", .ofOption .ofWord address),
    ("offset", .ofOption .int offset), ("type_info", typeInfo.toJson), ("scope", .ofMember scope)]
    (by simp) (by simp [Legible.string ht.1, haddress, hoffset, typeInfo.legible ht.2,
      legible_ofMember])

theorem FunctionInfo.legible {f : FunctionInfo} (ht : ∀ t ∈ f.texts, t.Unpaired)
    (hn : ∀ n ∈ f.integers, Json.Short n) : Legible f.toJson := by
  obtain ⟨name, address, size, parameters, returnType⟩ := f
  simp only [FunctionInfo.texts, List.forall_mem_cons, List.forall_mem_append,
    List.forall_mem_flatMap] at ht
  simp only [FunctionInfo.integers, List.forall_mem_flatMap] at hn
  obtain ⟨hname, hparameters, hreturn⟩ := ht
  have hsize : Legible (.ofOption .ofWord size) := legible_ofOption fun n _ => legible_ofWord n
  have hlist : Legible (.array (parameters.map (·.toJson))) :=
    legible_list fun p hp => VariableInfo.legible (hparameters p hp) (hn p hp)
  have htype : Legible (.ofOption (·.toJson) returnType) :=
    legible_ofOption fun t h => t.legible (hreturn t (Option.mem_toList.mpr h))
  exact legible_record [("name", .string name), ("address", .ofWord address),
    ("size", .ofOption .ofWord size), ("parameters", .array (parameters.map (·.toJson))),
    ("return_type", .ofOption (·.toJson) returnType)] (by simp)
    (by simp [Legible.string hname, legible_ofWord, hsize, hlist, htype])

theorem ElfInfo.legible {e : ElfInfo} (ht : ∀ t ∈ e.texts, t.Unpaired)
    (hn : ∀ n ∈ e.integers, Json.Short n) : Legible e.toJson := by
  obtain ⟨architecture, entryPoint, sections, fileType, byteOrder, functions, globals, types⟩ := e
  simp only [ElfInfo.texts, List.forall_mem_append, List.forall_mem_flatMap] at ht
  simp only [ElfInfo.integers, List.forall_mem_append, List.forall_mem_flatMap] at hn
  obtain ⟨⟨⟨hsections, hfunctions⟩, hglobals⟩, htypes⟩ := ht
  have hs : Legible (.array (sections.map .string)) :=
    legible_list fun t h => .string (hsections t h)
  have hf : Legible (.array (functions.map (·.toJson))) :=
    legible_list fun f h => FunctionInfo.legible (hfunctions f h) (hn.1 f h)
  have hg : Legible (.array (globals.map (·.toJson))) :=
    legible_list fun v h => VariableInfo.legible (hglobals v h) (hn.2 v h)
  have htypes : Legible (.array (types.map (·.toJson))) :=
    legible_list fun t h => t.legible (htypes t h)
  exact legible_record [("architecture", .ofMember architecture),
    ("entry_point", .ofWord entryPoint), ("sections", .array (sections.map .string)),
    ("file_type", .ofMember fileType), ("endianness", .ofMember byteOrder),
    ("functions", .array (functions.map (·.toJson))),
    ("variables", .array (globals.map (·.toJson))), ("types", .array (types.map (·.toJson)))]
    (by simp) (by simp [legible_ofMember, legible_ofWord, hs, hf, hg, htypes])

theorem ThreadInfo.legible {t : ThreadInfo} (hn : Json.Short t.id) : Legible t.toJson :=
  legible_record [("thread_id", .int t.id), ("registers", .ofBytes t.registers)] (by simp)
    (by simp [Legible.int hn, legible_ofBytes])

theorem CoreInfo.legible {c : CoreInfo} (hn : ∀ n ∈ c.integers, Json.Short n) :
    Legible c.toJson := by
  have ht : Legible (.array (c.threads.map (·.toJson))) :=
    legible_list fun t h => ThreadInfo.legible (hn t.id (List.mem_map_of_mem h))
  exact legible_record [("architecture", .ofMember c.architecture),
    ("threads", .array (c.threads.map (·.toJson)))] (by simp) (by simp [legible_ofMember, ht])

namespace AnalysisResult

theorem Portable.legible {r : AnalysisResult} (h : r.Portable) : Legible r.toJson := by
  obtain ⟨htexts, hintegers, -⟩ := h
  obtain ⟨elfInfo, coreInfo⟩ := r
  simp only [AnalysisResult.texts, List.forall_mem_flatMap, Option.mem_toList] at htexts
  simp only [AnalysisResult.integers, List.forall_mem_append, List.forall_mem_flatMap,
    Option.mem_toList] at hintegers
  have he : Legible (.ofOption (·.toJson) elfInfo) :=
    legible_ofOption fun e h => ElfInfo.legible (htexts e h) (hintegers.1 e h)
  have hc : Legible (.ofOption (·.toJson) coreInfo) :=
    legible_ofOption fun c h => CoreInfo.legible (hintegers.2 c h)
  exact legible_record [("elf_info", .ofOption (·.toJson) elfInfo),
    ("coredump_info", .ofOption (·.toJson) coreInfo)] (by simp) (by simp [he, hc])

theorem Portable.parse_render {r : AnalysisResult} (h : r.Portable) (indent : Option Nat) :
    parse (r.render indent) = .ok r := by
  have htext := Json.parse_render h.legible h.depth indent
  rw [parse, render, htext]
  simp only [ofJson_toJson]

theorem Portable.parseBytes_render {r : AnalysisResult} (h : r.Portable) (indent : Option Nat) :
    parseBytes (Utf8.encode (r.render indent)) = .ok r := by
  rw [parseBytes, render, Json.render,
    Utf8.decode?_encode (Json.scalar_renderAt h.legible indent 0)]
  exact h.parse_render indent

end AnalysisResult

end ElfScope
