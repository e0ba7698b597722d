import Mathlib
import ElfScope.Proofs.Dwarf.Renaming

/-! # Walks with other tables of strings

Records of entries that are decoded from sections with other tables of strings differ in their names at
most. What a name is follows from the entry: it is written there, or it is the string of a table at an
offset that the entry tells of, and where there is no such string it is a default.
-/
namespace ElfScope

open Dwarf

/-! ### Records -/

section
variable (s : DebugSections) (strings lineStrings : Bytes)

/-- The names of two records that tell of one entry, each by what it was decoded to. The entry is
written with the source of both. -/
def NamesAlike (default : Text) (tells tells' : Die → Prop) (name name' : Text) : Prop :=
  ∃ u ∈ CompileUnit.units s, ∃ d d' src, Die.Renamed s strings lineStrings u d d' ∧
    tells d ∧ tells' d' ∧ u.NamedBy s d.offset src ∧
    name = src.text s default ∧ name' = src.text (s.restring strings lineStrings) default

inductive VariableInfo.Renamed : VariableInfo → VariableInfo → Prop where
  | mk (x : VariableInfo) (name : Text) :
      NamesAlike s strings lineStrings Die.unknownName (x = ·.variableInfo x.scope)
        ({ x with name } = ·.variableInfo x.scope) x.name name →
      VariableInfo.Renamed x { x with name }

inductive MemberInfo.Renamed : MemberInfo → MemberInfo → Prop where
  | mk (name name' : Text) (offset : UInt64) (typeInfo : TypeInfo) :
      NamesAlike s strings lineStrings Die.unknownName
        (·.memberInfo = .ok (.mk name offset typeInfo))
        (·.memberInfo = .ok (.mk name' offset typeInfo)) name name' →
      MemberInfo.Renamed (.mk name offset typeInfo) (.mk name' offset typeInfo)

inductive TypeInfo.Renamed : TypeInfo → TypeInfo → Prop where
  | mk (name name' : Text) (size : Option UInt64) (kind : TypeKind) (members members' : List MemberInfo) :
      NamesAlike s strings lineStrings Die.anonymousName
        (·.typeInfo members = .ok (.mk name size kind members))
        (·.typeInfo members' = .ok (.mk name' size kind members')) name name' →
      List.Forall₂ (MemberInfo.Renamed s strings lineStrings) members members' →
      TypeInfo.Renamed (.mk name size kind members) (.mk name' size kind members')

inductive FunctionInfo.Renamed : FunctionInfo → FunctionInfo → Prop where
  | mk (f : FunctionInfo) (name : Text) (parameters : List VariableInfo) :
      NamesAlike s strings lineStrings Die.unknownName (·.functionInfo f.parameters = .ok f)
        (·.functionInfo parameters = .ok { f with name, parameters }) f.name name →
      List.Forall₂ (VariableInfo.Renamed s strings lineStrings) f.parameters parameters →
      FunctionInfo.Renamed f { f with name, parameters }

/-- The same records in the same order, with other names at most. -/
structure Symbols.Renamed (found found' : Symbols) : Prop where
  functions : List.Forall₂ (FunctionInfo.Renamed s strings lineStrings) found.functions found'.functions
  globals : List.Forall₂ (VariableInfo.Renamed s strings lineStrings) found.globals found'.globals
  types : List.Forall₂ (TypeInfo.Renamed s strings lineStrings) found.types found'.types

end

section
variable {s : DebugSections} {strings lineStrings : Bytes} {u : CompileUnit}

namespace Dwarf.Die.Renamed
variable {d d' : Die} (h : Die.Renamed s strings lineStrings u d d')
include h

theorem exists_source : ∃ src, u.NamedBy s d.offset src ∧ ∀ default,
    d.name default = src.text s default ∧
      d'.name default = src.text (s.restring strings lineStrings) default := by
  obtain ⟨ws, hws, has⟩ := h.attributes
  have hfound := has.found AttributeCode.name
  have hnamed (src : NameSource)
      (hsrc : (ws.get? AttributeCode.name).elim (src = .missing) (·.TakenFrom s u src)) :
      u.NamedBy s d.offset src := ⟨ws, hws, hsrc⟩
  simp only [Die.name_eq, Die.attribute?]
  generalize ws.get? AttributeCode.name = w at hfound hnamed
  generalize d.attributes.get? AttributeCode.name = a at hfound ⊢
  generalize d'.attributes.get? AttributeCode.name = a' at hfound ⊢
  cases hfound with
  | none => exact ⟨.missing, hnamed _ rfl, fun default => ⟨rfl, rfl⟩⟩
  | some ha =>
    obtain ⟨src, htaken, htexts⟩ := ha.exists_source
    exact ⟨src, hnamed src htaken, htexts⟩

theorem location? : d.location? = d'.location? := by
  unfold Die.location?
  rcases h.attribute?_eq_or AttributeCode.location with hx | ⟨c, form, v, v', hx, hx', hv, hv'⟩
  · rw [hx]
  · rw [hx, hx']
    cases v <;> cases v' <;> first | rfl | cases hv; done | cases hv'

/-- Where a string stands for a number, there is none. -/
theorem bind_unsignedConstant? (code : Nat) :
    (d.attribute? code).bind Die.unsignedConstant? =
      (d'.attribute? code).bind Die.unsignedConstant? := by
  rcases h.attribute?_eq_or code with hx | ⟨c, form, v, v', hx, hx', hv, hv'⟩
  · rw [hx]
  · rw [hx, hx']
    cases v <;> cases v' <;> first | rfl | cases hv; done | cases hv'

theorem lowPc : d.lowPc = d'.lowPc := by
  unfold Die.lowPc
  rcases h.attribute?_eq_or AttributeCode.lowPc with hx | ⟨c, form, v, v', hx, hx', hv, hv'⟩
  · rw [hx]
  · rw [hx, hx']
    cases v <;> cases v' <;> first
      | cases hv; done
      | cases hv'; done
      | cases form <;> rfl

theorem codeSize? (low : Int) : d.codeSize? low = d'.codeSize? low := by
  unfold Die.codeSize?
  rcases h.attribute?_eq_or AttributeCode.highPc with hx | ⟨c, form, v, v', hx, hx', hv, hv'⟩
  · rw [hx]
  · rw [hx, hx']
    cases v <;> cases v' <;> first
      | cases hv; done
      | cases hv'; done
      | cases form <;> rfl

theorem attribute?_form (code : Nat) :
    (d.attribute? code).map (·.form) = (d'.attribute? code).map (·.form) := by
  rcases h.attribute?_eq_or code with hx | ⟨c, form, v, v', hx, hx', hv, hv'⟩
  · rw [hx]
  · rw [hx, hx']
    rfl

theorem hasType : d.hasType = d'.hasType := by
  have hform := congrArg Option.isSome (h.attribute?_form AttributeCode.type)
  rwa [Option.isSome_map, Option.isSome_map] at hform

theorem hasUnitReference : d.hasUnitReference = d'.hasUnitReference := by
  have hform := congrArg (·.any Form.isUnitReference) (h.attribute?_form AttributeCode.type)
  rwa [Option.any_map, Option.any_map] at hform

theorem typeKind : d.typeKind = d'.typeKind := by
  unfold Die.typeKind
  rw [h.tag]

variable (hu : u ∈ CompileUnit.units s)
include hu

theorem namesAlike (default : Text) {tells tells' : Die → Prop} (ht : tells d) (ht' : tells' d') :
    NamesAlike s strings lineStrings default tells tells' (d.name default) (d'.name default) := by
  obtain ⟨src, hsrc, htexts⟩ := h.exists_source
  exact ⟨u, hu, d, d', src, h, ht, ht', hsrc, htexts default⟩

theorem variableInfo (scope : Scope) :
    VariableInfo.Renamed s strings lineStrings (d.variableInfo scope) (d'.variableInfo scope) := by
  have hother : d'.variableInfo scope =
      { d.variableInfo scope with name := d'.name Die.unknownName } := by
    unfold Die.variableInfo
    rw [h.location?, h.hasType]
  rw [hother]
  exact .mk _ _ (h.namesAlike hu Die.unknownName rfl hother.symm)

theorem memberInfo :
    Matching (MemberInfo.Renamed s strings lineStrings) d.memberInfo d'.memberInfo := by
  have hoffset : d.memberOffset = d'.memberOffset := by
    unfold Die.memberOffset
    rw [h.bind_unsignedConstant?]
  have htells (d : Die) : d.memberInfo = (Check.wordOf "offset" d.memberOffset).map
      fun offset => .mk (d.name Die.unknownName) offset .unresolved := by
    unfold Die.memberInfo
    cases Check.wordOf "offset" d.memberOffset <;> rfl
  have hd := htells d
  have hd' := htells d'
  rw [hoffset] at hd
  cases hword : Check.wordOf "offset" d'.memberOffset with
  | error e =>
    rw [hword] at hd hd'
    rw [hd, hd']
    exact .error e
  | ok offset =>
    rw [hword, Except.map] at hd hd'
    rw [hd, hd']
    exact .ok (.mk _ _ _ _ (h.namesAlike hu _ hd hd'))

theorem functionInfo {parameters parameters' : List VariableInfo}
    (hparameters : List.Forall₂ (VariableInfo.Renamed s strings lineStrings) parameters parameters') :
    Matching (FunctionInfo.Renamed s strings lineStrings) (d.functionInfo parameters)
      (d'.functionInfo parameters') := by
  have htells (d : Die) (parameters : List VariableInfo) : d.functionInfo parameters =
      (Check.wordOf "address" d.lowPc).bind fun address =>
        (Die.sizeWord (d.codeSize? d.lowPc)).map fun size =>
          { name := d.name Die.unknownName, address, size, parameters,
            returnType := if d.hasUnitReference then some TypeInfo.returned else none } := by
    unfold Die.functionInfo
    cases Check.wordOf "address" d.lowPc with
    | error e => rfl
    | ok address => cases Die.sizeWord (d.codeSize? d.lowPc) <;> rfl
  have hd := htells d parameters
  have hd' := htells d' parameters'
  rw [h.lowPc, h.codeSize?, h.hasUnitReference] at hd
  cases haddress : Check.wordOf "address" d'.lowPc with
  | error e =>
    rw [haddress] at hd hd'
    rw [hd, hd']
    exact .error e
  | ok address =>
    cases hsize : Die.sizeWord (d'.codeSize? d'.lowPc) with
    | error e =>
      rw [haddress, hsize] at hd hd'
      rw [hd, hd']
      exact .error e
    | ok size =>
      rw [haddress, hsize, Except.bind, Except.map] at hd hd'
      rw [hd, hd']
      exact .ok (.mk _ _ _ (h.namesAlike hu _ hd hd') hparameters)

theorem typeInfo {members members' : List MemberInfo}
    (hmembers : List.Forall₂ (MemberInfo.Renamed s strings lineStrings) members members') :
    Matching (TypeInfo.Renamed s strings lineStrings) (d.typeInfo members) (d'.typeInfo members') := by
  have htells (d : Die) (members : List MemberInfo) : d.typeInfo members =
      (Die.sizeWord d.byteSize?).map fun size =>
        .mk (d.name Die.anonymousName) size d.typeKind members := by
    unfold Die.typeInfo
    cases Die.sizeWord d.byteSize? <;> rfl
  have hbytes : d.byteSize? = d'.byteSize? := h.bind_unsignedConstant? _
  have hd := htells d members
  have hd' := htells d' members'
  rw [hbytes, h.typeKind] at hd
  cases hsize : Die.sizeWord d'.byteSize? with
  | error e =>
    rw [hsize] at hd hd'
    rw [hd, hd']
    exact .error e
  | ok size =>
    rw [hsize, Except.map] at hd hd'
    rw [hd, hd']
    exact .ok (.mk _ _ _ _ _ _ (h.namesAlike hu _ hd hd') hmembers)

end Dwarf.Die.Renamed

/-- Units are found without strings. -/
theorem Dwarf.CompileUnit.listFrom_restring (fuel offset : Nat) :
    CompileUnit.listFrom (s.restring strings lineStrings) fuel offset =
      CompileUnit.listFrom s fuel offset := by
  induction fuel generalizing offset with
  | zero => rfl
  | succ fuel ih =>
    have hat : CompileUnit.at? (s.restring strings lineStrings) offset = CompileUnit.at? s offset :=
      rfl
    simp only [CompileUnit.listFrom, DebugSections.restring_info, hat, ih]

/-! ### What a walk keeps -/

namespace Dwarf

variable (s strings lineStrings) in
structure Desk.Renamed (desk desk' : Desk) : Prop where
  memory : ∀ u ∈ CompileUnit.units s,
    Memory.Renamed s strings lineStrings u (desk.memory u) (desk'.memory u)
  types : List.Forall₂ (fun x x' => x.1 = x'.1 ∧ TypeInfo.Renamed s strings lineStrings x.2 x'.2)
    desk.types desk'.types
  found : Symbols.Renamed s strings lineStrings desk.found desk'.found

namespace Desk.Renamed
variable {desk desk' desk₁ desk₁' : Desk}

theorem alike (h : Desk.Renamed s strings lineStrings desk desk') (ha : Desk.Alike desk desk₁)
    (ha' : Desk.Alike desk' desk₁') : Desk.Renamed s strings lineStrings desk₁ desk₁' := by
  constructor
  · intro u hu
    rw [ha.memory, ha'.memory]
    exact h.memory u hu
  · rw [ha.types, ha'.types]
    exact h.types
  · rw [ha.found, ha'.found]
    exact h.found

theorem remember (h : Desk.Renamed s strings lineStrings desk desk')
    (hu : u ∈ CompileUnit.units s) {m m' : Memory} (hm : Memory.Renamed s strings lineStrings u m m') :
    Desk.Renamed s strings lineStrings (desk.remember u m) (desk'.remember u m') := by
  constructor
  · intro v hv
    by_cases hsame : v.offset = u.offset
    · cases CompileUnit.eq_of_mem_units hu hv hsame
      rw [Growth.memory_remember_of_eq rfl, Growth.memory_remember_of_eq rfl]
      exact hm
    · rw [Growth.memory_remember_of_ne hsame, Growth.memory_remember_of_ne hsame]
      exact h.memory v hv
  · exact h.types
  · exact h.found

theorem lookup (h : Desk.Renamed s strings lineStrings desk desk') (key : Nat × Int) :
    Option.Rel (TypeInfo.Renamed s strings lineStrings) (desk.types.lookup key)
      (desk'.types.lookup key) := by
  have htypes := h.types
  generalize desk.types = types at htypes ⊢
  generalize desk'.types = types' at htypes ⊢
  induction htypes with
  | nil => exact .none
  | @cons x x' types types' hx _ ih =>
    obtain ⟨k, info⟩ := x
    obtain ⟨k', info'⟩ := x'
    obtain ⟨rfl, hinfo⟩ := hx
    rw [List.lookup_cons, List.lookup_cons]
    cases key == k with
    | true => exact .some hinfo
    | false => exact ih

theorem cache (h : Desk.Renamed s strings lineStrings desk desk') (key : Nat × Int)
    {info info' : TypeInfo} (hinfo : TypeInfo.Renamed s strings lineStrings info info') :
    Desk.Renamed s strings lineStrings { desk with types := desk.types ++ [(key, info)] }
      { desk' with types := desk'.types ++ [(key, info')] } :=
  ⟨h.memory, List.rel_append h.types (.cons ⟨rfl, hinfo⟩ .nil), h.found⟩

end Desk.Renamed

namespace Walk
variable {α α' : Type} {Q : α → α' → Prop}

theorem mirrors_inUnit (hu : u ∈ CompileUnit.units s) {act : Reading α} {act' : Reading α'}
    (h : Mirrors (Memory.Renamed s strings lineStrings u) act act' Q) :
    Mirrors (Desk.Renamed s strings lineStrings) (inUnit u act) (inUnit u act') Q := by
  intro desk desk' hd
  obtain ⟨hvalue, hmemory⟩ := h _ _ (hd.memory u hu)
  rw [outcome_inUnit, outcome_inUnit]
  exact ⟨hvalue, hd.remember hu hmemory⟩

theorem mirrors_attempt {act : Walk α} {act' : Walk α'}
    (h : Mirrors (Desk.Renamed s strings lineStrings) act act' Q) :
    Mirrors (Desk.Renamed s strings lineStrings) (attempt act) (attempt act') (Option.Rel Q) := by
  intro desk desk' hd
  obtain ⟨hvalue, hdesk⟩ := h desk desk' hd
  rw [outcome_attempt, outcome_attempt]
  rcases hr : outcome act desk with ⟨r, desk₁⟩
  rcases hr' : outcome act' desk' with ⟨r', desk₁'⟩
  rw [hr, hr'] at hvalue hdesk
  cases hvalue with
  | error e =>
    cases e with
    | undecodable => exact ⟨.ok .none, hdesk⟩
    | invalid e => exact ⟨.ok .none, hdesk⟩
    | endless => exact ⟨.error _, hdesk⟩
  | ok ha => exact ⟨.ok (.some ha), hdesk⟩

theorem mirrors_ofRecord {r : Except RecordError α} {r' : Except RecordError α'}
    (h : Matching Q r r') :
    Mirrors (Desk.Renamed s strings lineStrings) (ofRecord r) (ofRecord r') Q := by
  cases h with
  | error e => exact mirrors_throw _
  | ok ha => exact mirrors_pure ha

/-- What is reported is not compared: a message may tell a name. -/
theorem mirrors_report (level : Level) (logger message message' : Text) :
    Mirrors (Desk.Renamed s strings lineStrings) (report level logger message)
      (report level logger message') fun _ _ => True :=
  mirrors_modify fun _ _ h => ⟨h.memory, h.types, h.found⟩

/-! ### Records that are made -/

section
variable (hu : u ∈ CompileUnit.units s)
include hu

theorem mirrors_collectFrom {make : Die → Walk (Option α)} {make' : Die → Walk (Option α')}
    (hmake : ∀ d d', Die.Renamed s strings lineStrings u d d' →
      Mirrors (Desk.Renamed s strings lineStrings) (make d) (make' d') (Option.Rel Q))
    (fuel : Nat) {c c' : Cursor} (hc : Cursor.Renamed s strings lineStrings u c c') :
    Mirrors (Desk.Renamed s strings lineStrings) (collectFrom s u make fuel c)
      (collectFrom (s.restring strings lineStrings) u make' fuel c') (List.Forall₂ Q) := by
  induction fuel generalizing c c' with
  | zero => exact mirrors_throw _
  | succ fuel ih =>
    rw [collectFrom, collectFrom]
    apply (mirrors_inUnit hu (CompileUnit.mirrors_advance hc)).bind
    intro r r' hr
    cases hr with
    | none => exact mirrors_pure .nil
    | @some x x' hx =>
      obtain ⟨hd, hcursor⟩ := hx
      apply (hmake _ _ hd).bind
      intro made made' hmade
      apply (ih hcursor).bind
      intro rest rest' hrest
      apply mirrors_pure
      cases hmade with
      | none => exact hrest
      | some ha => exact .cons ha hrest

theorem mirrors_collectChildren {d d' : Die} (hd : Die.Renamed s strings lineStrings u d d')
    (tag : Nat) {make : Die → Walk (Option α)} {make' : Die → Walk (Option α')}
    (hmake : ∀ d d', Die.Renamed s strings lineStrings u d d' →
      Mirrors (Desk.Renamed s strings lineStrings) (make d) (make' d') (Option.Rel Q)) :
    Mirrors (Desk.Renamed s strings lineStrings) (collectChildren s u d tag make)
      (collectChildren (s.restring strings lineStrings) u d' tag make') (List.Forall₂ Q) := by
  unfold collectChildren
  rw [hd.children?]
  cases hchildren : d.children? with
  | none => exact mirrors_pure .nil
  | some c =>
    apply mirrors_collectFrom hu _ _ (Cursor.renamed_children hchildren)
    intro child child' hchild
    apply Mirrors.ite (by rw [hchild.tag])
    · exact hmake child child' hchild
    · exact mirrors_pure .none

omit hu in
theorem mirrors_orSkip {child child' : Die} {part : Text} {act : Walk α} {act' : Walk α'}
    (h : Mirrors (Desk.Renamed s strings lineStrings) act act' Q) :
    Mirrors (Desk.Renamed s strings lineStrings) (orSkip child part act) (orSkip child' part act')
      (Option.Rel Q) := by
  unfold orSkip
  apply (mirrors_attempt h).bind
  intro o o' ho
  cases ho with
  | some ha => exact mirrors_pure (.some ha)
  | none => exact (mirrors_report _ _ _ _).bind fun _ _ _ => mirrors_pure .none

theorem mirrors_extractFunction {d d' : Die} (hd : Die.Renamed s strings lineStrings u d d') :
    Mirrors (Desk.Renamed s strings lineStrings) (extractFunction s u d)
      (extractFunction (s.restring strings lineStrings) u d')
      (FunctionInfo.Renamed s strings lineStrings) := by
  unfold extractFunction
  have hparameter (child child' : Die) (hchild : Die.Renamed s strings lineStrings u child child') :
      Mirrors (Desk.Renamed s strings lineStrings) (extractVariable child .parameter)
        (extractVariable child' .parameter) (VariableInfo.Renamed s strings lineStrings) :=
    mirrors_pure (hchild.variableInfo hu .parameter)
  apply (mirrors_collectChildren hu hd _ fun _ _ hc => mirrors_orSkip (hparameter _ _ hc)).bind
  intro parameters parameters' hparameters
  exact mirrors_ofRecord (hd.functionInfo hu hparameters)

theorem mirrors_makeType {d d' : Die} (hd : Die.Renamed s strings lineStrings u d d') :
    Mirrors (Desk.Renamed s strings lineStrings) (makeType s u d)
      (makeType (s.restring strings lineStrings) u d') (TypeInfo.Renamed s strings lineStrings) := by
  have hmembers : Mirrors (Desk.Renamed s strings lineStrings) (extractMembers s u d)
      (extractMembers (s.restring strings lineStrings) u d')
      (List.Forall₂ (MemberInfo.Renamed s strings lineStrings)) := by
    unfold extractMembers
    apply Mirrors.ite (by rw [hd.typeKind])
    · exact mirrors_collectChildren hu hd _ fun child child' hchild =>
        mirrors_orSkip (mirrors_ofRecord (hchild.memberInfo hu))
    · exact mirrors_pure .nil
  unfold makeType
  apply hmembers.bind
  intro members members' hmembers
  exact mirrors_ofRecord (hd.typeInfo hu hmembers)

/-- A type is cached in both walks or in neither. -/
theorem mirrors_extractType {d d' : Die} (hd : Die.Renamed s strings lineStrings u d d') :
    Mirrors (Desk.Renamed s strings lineStrings) (extractType s u d)
      (extractType (s.restring strings lineStrings) u d')
      (TypeInfo.Renamed s strings lineStrings) := by
  have hkey : d'.unitOffset u = d.unitOffset u := by
    unfold Die.unitOffset
    rw [hd.offset]
  have hmake : Mirrors (Desk.Renamed s strings lineStrings) (makeType s u d >>= cacheType u d)
      (makeType (s.restring strings lineStrings) u d' >>= cacheType u d')
      (TypeInfo.Renamed s strings lineStrings) := by
    apply (mirrors_makeType hu hd).bind
    intro info info' hinfo
    unfold cacheType
    rw [hkey]
    apply Mirrors.bind (mirrors_modify fun _ _ hdesk => hdesk.cache _ hinfo)
    exact fun _ _ _ => mirrors_pure hinfo
  intro desk desk' hdesk
  have hcached := hdesk.lookup (u.offset, d.unitOffset u)
  rw [outcome_extractType, outcome_extractType, hkey]
  generalize desk.types.lookup (u.offset, d.unitOffset u) = x at hcached ⊢
  generalize desk'.types.lookup (u.offset, d.unitOffset u) = x' at hcached ⊢
  cases hcached with
  | some hinfo => exact ⟨.ok hinfo, hdesk⟩
  | none => exact hmake desk desk' hdesk

theorem mirrors_recordOf {v v' : Preorder.Visit Die}
    (hd : Die.Renamed s strings lineStrings u v.node v'.node) (hinside : v.inside = v'.inside) :
    Mirrors (Desk.Renamed s strings lineStrings) (recordOf s u v)
      (recordOf (s.restring strings lineStrings) u v') fun _ _ => True := by
  unfold recordOf
  simp only [hd.tag, hinside]
  apply Mirrors.ite Iff.rfl
  · apply (mirrors_extractFunction hu hd).bind
    intro f f' hf
    apply mirrors_modify
    intro desk desk' h
    exact ⟨h.memory, h.types, List.rel_append h.found.functions (.cons hf .nil), h.found.globals,
      h.found.types⟩
  apply Mirrors.ite Iff.rfl
  · apply Mirrors.ite Iff.rfl _ (mirrors_pure trivial)
    apply mirrors_modify
    intro desk desk' h
    exact ⟨h.memory, h.types, h.found.functions,
      List.rel_append h.found.globals (.cons (hd.variableInfo hu .global) .nil), h.found.types⟩
  apply Mirrors.ite Iff.rfl _ (mirrors_pure trivial)
  apply (mirrors_extractType hu hd).bind
  intro t t' ht
  apply mirrors_modify
  intro desk desk' h
  exact ⟨h.memory, h.types, h.found.functions, h.found.globals,
    List.rel_append h.found.types (.cons ht .nil)⟩

theorem mirrors_processEntry {v v' : Preorder.Visit Die}
    (hd : Die.Renamed s strings lineStrings u v.node v'.node) (hinside : v.inside = v'.inside) :
    Mirrors (Desk.Renamed s strings lineStrings) (processEntry s u v)
      (processEntry (s.restring strings lineStrings) u v') fun _ _ => True := by
  unfold processEntry
  apply (mirrors_report _ _ _ _).bind
  intro _ _ _
  apply (mirrors_attempt (mirrors_recordOf hu hd hinside)).bind
  intro o o' ho
  cases ho with
  | none => exact mirrors_report _ _ _ _
  | some _ => exact mirrors_pure trivial

/-! ### Traversals -/

omit hu in
variable (s strings lineStrings u) in
structure VisitRenamed (v v' : Preorder.Visit Die) : Prop where
  node : Die.Renamed s strings lineStrings u v.node v'.node
  inside : v.inside = v'.inside

omit hu in
variable (s strings lineStrings u) in
structure LevelRenamed (level level' : Preorder.Level Cursor) : Prop where
  cursor : Cursor.Renamed s strings lineStrings u level.cursor level'.cursor
  inside : level.inside = level'.inside

omit hu in
theorem VisitRenamed.below {v v' : Preorder.Visit Die} (h : VisitRenamed s strings lineStrings u v v') :
    List.Forall₂ (LevelRenamed s strings lineStrings u)
      (Preorder.below Die.children? Die.isSubprogram v)
      (Preorder.below Die.children? Die.isSubprogram v') := by
  have hmarked : v'.node.isSubprogram = v.node.isSubprogram := by
    unfold Die.isSubprogram
    rw [h.node.tag]
  unfold Preorder.below
  rw [h.node.children?, hmarked]
  cases hchildren : v.node.children? with
  | none => exact .nil
  | some c =>
    exact .cons ⟨Cursor.renamed_children hchildren, by simp only [h.inside]⟩ .nil

theorem mirrors_next {levels levels' : List (Preorder.Level Cursor)}
    (h : List.Forall₂ (LevelRenamed s strings lineStrings u) levels levels') :
    Mirrors (Desk.Renamed s strings lineStrings)
      (Preorder.next (fun c => inUnit u (u.advance s c)) Die.children? Die.isSubprogram levels)
      (Preorder.next (fun c => inUnit u (u.advance (s.restring strings lineStrings) c))
        Die.children? Die.isSubprogram levels')
      (Option.Rel fun x x' => VisitRenamed s strings lineStrings u x.1 x'.1 ∧
        List.Forall₂ (LevelRenamed s strings lineStrings u) x.2 x'.2) := by
  -- The two stacks have as many levels, and their iterators end at the same child.
  induction h with
  | nil => exact mirrors_pure .none
  | @cons level level' rest rest' hlevel hrest ih =>
    rw [Preorder.next, Preorder.next]
    apply (mirrors_inUnit hu (CompileUnit.mirrors_advance hlevel.cursor)).bind
    intro r r' hr
    cases hr with
    | none => exact ih
    | @some x x' hx =>
      obtain ⟨hd, hcursor⟩ := hx
      have hvisit : VisitRenamed s strings lineStrings u ⟨x.1, level.depth, level.inside⟩
          ⟨x'.1, level'.depth, level'.inside⟩ := ⟨hd, hlevel.inside⟩
      apply mirrors_pure
      exact .some ⟨hvisit, List.rel_append hvisit.below (.cons ⟨hcursor, hlevel.inside⟩ hrest)⟩

theorem mirrors_forLevels (fuel : Nat) {levels levels' : List (Preorder.Level Cursor)}
    (h : List.Forall₂ (LevelRenamed s strings lineStrings u) levels levels') :
    Mirrors (Desk.Renamed s strings lineStrings) (forLevels s u fuel levels)
      (forLevels (s.restring strings lineStrings) u fuel levels') fun _ _ => True := by
  induction fuel generalizing levels levels' with
  | zero => exact mirrors_throw _
  | succ fuel ih =>
    rw [forLevels_succ, forLevels_succ]
    apply (mirrors_next hu h).bind
    intro r r' hr
    cases hr with
    | none => exact mirrors_pure trivial
    | some hx =>
      obtain ⟨hvisit, hleft⟩ := hx
      apply (mirrors_processEntry hu hvisit.node hvisit.inside).bind
      exact fun _ _ _ => ih hleft

theorem mirrors_walkUnit : Mirrors (Desk.Renamed s strings lineStrings) (walkUnit s u)
    (walkUnit (s.restring strings lineStrings) u) fun _ _ => True := by
  have hentries : Mirrors (Desk.Renamed s strings lineStrings) (forEntries s u (processEntry s u))
      (forEntries (s.restring strings lineStrings) u
        (processEntry (s.restring strings lineStrings) u)) fun _ _ => True := by
    unfold forEntries Preorder.walk
    apply (mirrors_inUnit hu CompileUnit.mirrors_topDie).bind
    intro top top' htop
    have hvisit : VisitRenamed s strings lineStrings u ⟨top, 0, false⟩ ⟨top', 0, false⟩ :=
      ⟨htop, rfl⟩
    apply (mirrors_processEntry hu hvisit.node hvisit.inside).bind
    intro _ _ _
    exact mirrors_forLevels hu _ hvisit.below
  have hversion : Mirrors (Desk.Renamed s strings lineStrings) (checkVersion u.encoding.version)
      (checkVersion u.encoding.version) fun _ _ => True := by
    intro desk desk' h
    obtain ⟨desk₁, hrun, hlike⟩ := outcome_checkVersion u.encoding.version desk
    obtain ⟨desk₁', hrun', hlike'⟩ := outcome_checkVersion u.encoding.version desk'
    rw [hrun, hrun']
    exact ⟨.ok trivial, h.alike hlike hlike'⟩
  unfold walkUnit
  apply hversion.bind
  intro _ _ _
  apply (mirrors_attempt hentries).bind
  intro o o' ho
  cases ho with
  | none => exact mirrors_report _ _ _ _
  | some _ => exact mirrors_pure trivial

end

theorem mirrors_runUnits (s : DebugSections) (strings lineStrings : Bytes) :
    Mirrors (Desk.Renamed s strings lineStrings) (runUnits s)
      (runUnits (s.restring strings lineStrings)) (Symbols.Renamed s strings lineStrings) := by
  have hunits : CompileUnit.list (s.restring strings lineStrings) = CompileUnit.list s :=
    CompileUnit.listFrom_restring _ _
  have hheader (broken : Bool) : Mirrors (Desk.Renamed s strings lineStrings) (reportHeader broken)
      (reportHeader broken) fun _ _ => True :=
    Mirrors.ite Iff.rfl (mirrors_report _ _ _ _) (mirrors_pure trivial)
  have hfound : Mirrors (Desk.Renamed s strings lineStrings) summarize summarize
      (Symbols.Renamed s strings lineStrings) := by
    intro desk desk' h
    exact ⟨.ok h.found, h.memory, h.types, h.found⟩
  unfold runUnits
  rw [hunits]
  apply (mirrors_forM fun u hu => mirrors_walkUnit hu).bind
  intro _ _ _
  exact (hheader _).bind fun _ _ _ => hfound

/-- With other tables of strings a walk finds the same records in the same order, and has an end with
these or with none of them. -/
theorem run_restring (s : DebugSections) (strings lineStrings : Bytes) :
    Matching (Symbols.Renamed s strings lineStrings) (outcome (run (some s)) {}).1
      (outcome (run (some (s.restring strings lineStrings))) {}).1 := by
  have hempty : Desk.Renamed s strings lineStrings {} {} :=
    ⟨fun _ _ => .empty, .nil, .nil, .nil, .nil⟩
  exact (mirrors_runUnits s strings lineStrings {} {} hempty).1

end Walk

end Dwarf

end

end ElfScope
