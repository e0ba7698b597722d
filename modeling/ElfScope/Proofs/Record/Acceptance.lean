import Mathlib
import ElfScope.Proofs.Record.Decoding

/-! # Which values are records

Every reader of records takes the values of its grammar and no others, and what it takes is written
as the cleaned value.
-/
namespace ElfScope

open Json (field? part field listField Part)

theorem exists_object {j : Json} {key : Text} {α : Type} {k : Part j → Except RecordError α} {a : α}
    (h : (field j key >>= k) = .ok a) : ∃ fs, j = .object fs := by
  cases j with
  | object fs => exact ⟨fs, rfl⟩
  | _ => cases h

theorem TypeInfo.ofJson_object {fs : List (Text × Json)} {name : Text} {size : Option UInt64}
    {kind : TypeKind} {members : List MemberInfo} :
    ofJson (.object fs) = .ok (.mk name size kind members) ↔
      Takes fs "name" (Check.text "name") name ∧
      Takes fs "size" (Check.optional (Check.word "size")) size ∧
      Takes fs "kind" Check.member kind ∧
      Takes fs "members" (readList "members" MemberInfo.ofJson) members := by
  rw [ofJson]
  simp only [Except.bind_eq_ok, exists_field, exists_listField, exists_prop, Takes]
  constructor
  · rintro ⟨n, hn, s, hs, k, hk, kind, hkind, m, hm, ms, hms, name, hname, size, hsize, heq⟩
    cases heq
    exact ⟨⟨n, hn, hname⟩, ⟨s, hs, hsize⟩, ⟨k, hk, hkind⟩, ⟨m, hm, hms⟩⟩
  · rintro ⟨⟨n, hn, hname⟩, ⟨s, hs, hsize⟩, ⟨k, hk, hkind⟩, ⟨m, hm, hms⟩⟩
    exact ⟨n, hn, s, hs, k, hk, kind, hkind, m, hm, members, hms, name, hname, size, hsize, rfl⟩

theorem MemberInfo.ofJson_object {fs : List (Text × Json)} {name : Text} {offset : UInt64}
    {typeInfo : TypeInfo} :
    ofJson (.object fs) = .ok (.mk name offset typeInfo) ↔
      Takes fs "name" (Check.text "name") name ∧
      Takes fs "offset" (Check.word "offset") offset ∧
      Takes fs "type_info" TypeInfo.ofJson typeInfo := by
  rw [ofJson]
  simp only [Except.bind_eq_ok, exists_field, exists_prop, Takes]
  constructor
  · rintro ⟨n, hn, o, ho, t, ht, typeInfo, htype, name, hname, offset, hoffset, heq⟩
    cases heq
    exact ⟨⟨n, hn, hname⟩, ⟨o, ho, hoffset⟩, ⟨t, ht, htype⟩⟩
  · rintro ⟨⟨n, hn, hname⟩, ⟨o, ho, hoffset⟩, ⟨t, ht, htype⟩⟩
    exact ⟨n, hn, o, ho, t, ht, typeInfo, htype, name, hname, offset, hoffset, rfl⟩

/-- A type is read from its grammar when each of its members is. -/
theorem TypeInfo.decodes_of_members {j : Json}
    (hm : ∀ m, sizeOf m < sizeOf j →
      Decodes MemberInfo.ofJson (·.toJson) (.record .memberInfo) m) :
    Decodes ofJson (·.toJson) (.record .typeInfo) j := by
  have dname (v : Json) (_ : sizeOf v < sizeOf j) := Check.decodes_text "name" v
  have dsize (v : Json) (_ : sizeOf v < sizeOf j) :=
    Check.decodes_optional (Check.decodes_word "size" v)
  have dkind (v : Json) (_ : sizeOf v < sizeOf j) := Check.decodes_member (α := TypeKind) v
  have dmembers (v : Json) (hv : sizeOf v < sizeOf j) :=
    decodes_list "members" fun m hlt => hm m (hlt.trans hv)
  apply decodes_record
  · intro t ht
    rw [ofJson] at ht
    exact exists_object ht
  · rintro fs rfl hs
    have hc : RecordClass.typeInfo.Complete := by simp [RecordClass.Complete]
    obtain ⟨name, hname⟩ : ∃ a, Takes fs "name" (Check.text "name") a :=
      hs.takes hc (by simp [RecordClass.fields]) dname
    obtain ⟨size, hsize⟩ : ∃ a, Takes fs "size" (Check.optional (Check.word "size")) a :=
      hs.takes hc (by simp [RecordClass.fields]) dsize
    obtain ⟨kind, hkind⟩ : ∃ a, Takes fs "kind" Check.member a :=
      hs.takes hc (by simp [RecordClass.fields]) dkind
    obtain ⟨members, hmembers⟩ : ∃ a, Takes fs "members" (readList "members" MemberInfo.ofJson) a :=
      hs.takes hc (by simp [RecordClass.fields]) dmembers
    exact ⟨.mk name size kind members, ofJson_object.mpr ⟨hname, hsize, hkind, hmembers⟩⟩
  · rintro fs ⟨name, size, kind, members⟩ rfl ht
    obtain ⟨hname, hsize, hkind, hmembers⟩ := ofJson_object.mp ht
    rw [toJson, membersToJson_eq]
    refine ⟨_, rfl, ?_⟩
    exact .cons (hname.writes dname) (.cons (hsize.writes dsize)
      (.cons (hkind.writes dkind) (.cons (hmembers.writes dmembers) .nil)))

/-- A member is read from its grammar when its type is. -/
theorem MemberInfo.decodes_of_type {j : Json}
    (ht : ∀ t, sizeOf t < sizeOf j → Decodes TypeInfo.ofJson (·.toJson) (.record .typeInfo) t) :
    Decodes ofJson (·.toJson) (.record .memberInfo) j := by
  have dname (v : Json) (_ : sizeOf v < sizeOf j) := Check.decodes_text "name" v
  have doffset (v : Json) (_ : sizeOf v < sizeOf j) := Check.decodes_word "offset" v
  apply decodes_record
  · intro m hm
    rw [ofJson] at hm
    exact exists_object hm
  · rintro fs rfl hs
    have hc : RecordClass.memberInfo.Complete := by simp [RecordClass.Complete]
    obtain ⟨name, hname⟩ : ∃ a, Takes fs "name" (Check.text "name") a :=
      hs.takes hc (by simp [RecordClass.fields]) dname
    obtain ⟨offset, hoffset⟩ : ∃ a, Takes fs "offset" (Check.word "offset") a :=
      hs.takes hc (by simp [RecordClass.fields]) doffset
    obtain ⟨typeInfo, htype⟩ : ∃ a, Takes fs "type_info" TypeInfo.ofJson a :=
      hs.takes hc (by simp [RecordClass.fields]) ht
    exact ⟨.mk name offset typeInfo, ofJson_object.mpr ⟨hname, hoffset, htype⟩⟩
  · rintro fs ⟨name, offset, typeInfo⟩ rfl hm
    obtain ⟨hname, hoffset, htype⟩ := ofJson_object.mp hm
    rw [toJson]
    refine ⟨_, rfl, ?_⟩
    exact .cons (hname.writes dname) (.cons (hoffset.writes doffset)
      (.cons (htype.writes ht) .nil))

mutual

theorem TypeInfo.decodes (j : Json) : Decodes TypeInfo.ofJson (·.toJson) (.record .typeInfo) j :=
  TypeInfo.decodes_of_members fun m _ => MemberInfo.decodes m
termination_by sizeOf j

theorem MemberInfo.decodes (j : Json) :
    Decodes MemberInfo.ofJson (·.toJson) (.record .memberInfo) j :=
  MemberInfo.decodes_of_type fun t _ => TypeInfo.decodes t
termination_by sizeOf j

end

theorem VariableInfo.ofJson_object {fs : List (Text × Json)} {v : VariableInfo} :
    ofJson (.object fs) = .ok v ↔
      Takes fs "name" (Check.text "name") v.name ∧
      Takes fs "address" (Check.optional (Check.word "address")) v.address ∧
      Takes fs "offset" (Check.optional (Check.integer "offset")) v.offset ∧
      Takes fs "type_info" TypeInfo.ofJson v.typeInfo ∧
      Takes fs "scope" Check.member v.scope := by
  simp only [ofJson, Except.bind_eq_ok, exists_field, exists_prop, Takes]
  constructor
  · rintro ⟨n, hn, a, ha, o, ho, t, ht, typeInfo, htype, s, hs, scope, hscope, name, hname,
      address, haddress, offset, hoffset, heq⟩
    cases heq
    exact ⟨⟨n, hn, hname⟩, ⟨a, ha, haddress⟩, ⟨o, ho, hoffset⟩, ⟨t, ht, htype⟩, ⟨s, hs, hscope⟩⟩
  · rintro ⟨⟨n, hn, hname⟩, ⟨a, ha, haddress⟩, ⟨o, ho, hoffset⟩, ⟨t, ht, htype⟩, ⟨s, hs, hscope⟩⟩
    exact ⟨n, hn, a, ha, o, ho, t, ht, v.typeInfo, htype, s, hs, v.scope, hscope, v.name, hname,
      v.address, haddress, v.offset, hoffset, rfl⟩

theorem VariableInfo.decodes (j : Json) :
    Decodes VariableInfo.ofJson (·.toJson) (.record .variableInfo) j := by
  have dname (v : Json) (_ : sizeOf v < sizeOf j) := Check.decodes_text "name" v
  have daddress (v : Json) (_ : sizeOf v < sizeOf j) :=
    Check.decodes_optional (Check.decodes_word "address" v)
  have doffset (v : Json) (_ : sizeOf v < sizeOf j) :=
    Check.decodes_optional (Check.decodes_integer "offset" v)
  have dtype (v : Json) (_ : sizeOf v < sizeOf j) := TypeInfo.decodes v
  have dscope (v : Json) (_ : sizeOf v < sizeOf j) := Check.decodes_member (α := Scope) v
  apply decodes_record
  · intro v hv
    exact exists_object hv
  · rintro fs rfl hs
    have hc : RecordClass.variableInfo.Complete := by simp [RecordClass.Complete]
    obtain ⟨name, hname⟩ : ∃ a, Takes fs "name" (Check.text "name") a :=
      hs.takes hc (by simp [RecordClass.fields]) dname
    obtain ⟨address, haddress⟩ : ∃ a, Takes fs "address" (Check.optional (Check.word "address")) a :=
      hs.takes hc (by simp [RecordClass.fields]) daddress
    obtain ⟨offset, hoffset⟩ : ∃ a, Takes fs "offset" (Check.optional (Check.integer "offset")) a :=
      hs.takes hc (by simp [RecordClass.fields]) doffset
    obtain ⟨typeInfo, htype⟩ : ∃ a, Takes fs "type_info" TypeInfo.ofJson a :=
      hs.takes hc (by simp [RecordClass.fields]) dtype
    obtain ⟨scope, hscope⟩ : ∃ a, Takes fs "scope" Check.member a :=
      hs.takes hc (by simp [RecordClass.fields]) dscope
    exact ⟨⟨name, address, offset, typeInfo, scope⟩,
      ofJson_object.mpr ⟨hname, haddress, hoffset, htype, hscope⟩⟩
  · rintro fs v rfl hv
    obtain ⟨hname, haddress, hoffset, htype, hscope⟩ := ofJson_object.mp hv
    refine ⟨_, rfl, ?_⟩
    exact .cons (hname.writes dname) (.cons (haddress.writes daddress)
      (.cons (hoffset.writes doffset) (.cons (htype.writes dtype)
        (.cons (hscope.writes dscope) .nil))))

theorem FunctionInfo.ofJson_object {fs : List (Text × Json)} {f : FunctionInfo} :
    ofJson (.object fs) = .ok f ↔
      Takes fs "name" (Check.text "name") f.name ∧
      Takes fs "address" (Check.word "address") f.address ∧
      Takes fs "size" (Check.optional (Check.word "size")) f.size ∧
      Takes fs "parameters" (readList "parameters" VariableInfo.ofJson) f.parameters ∧
      Takes fs "return_type" (Check.optional TypeInfo.ofJson) f.returnType := by
  simp only [ofJson, Except.bind_eq_ok, exists_field, exists_listField, exists_prop, Takes]
  constructor
  · rintro ⟨r, hr, n, hn, a, ha, s, hs, p, hp, parameters, hparameters, returnType, hreturn, name,
      hname, address, haddress, size, hsize, heq⟩
    cases heq
    exact ⟨⟨n, hn, hname⟩, ⟨a, ha, haddress⟩, ⟨s, hs, hsize⟩, ⟨p, hp, hparameters⟩,
      ⟨r, hr, hreturn⟩⟩
  · rintro ⟨⟨n, hn, hname⟩, ⟨a, ha, haddress⟩, ⟨s, hs, hsize⟩, ⟨p, hp, hparameters⟩,
      ⟨r, hr, hreturn⟩⟩
    exact ⟨r, hr, n, hn, a, ha, s, hs, p, hp, f.parameters, hparameters, f.returnType, hreturn,
      f.name, hname, f.address, haddress, f.size, hsize, rfl⟩

theorem FunctionInfo.decodes (j : Json) :
    Decodes FunctionInfo.ofJson (·.toJson) (.record .functionInfo) j := by
  have dname (v : Json) (_ : sizeOf v < sizeOf j) := Check.decodes_text "name" v
  have daddress (v : Json) (_ : sizeOf v < sizeOf j) := Check.decodes_word "address" v
  have dsize (v : Json) (_ : sizeOf v < sizeOf j) :=
    Check.decodes_optional (Check.decodes_word "size" v)
  have dparameters (v : Json) (_ : sizeOf v < sizeOf j) :=
    decodes_list "parameters" (j := v) fun p _ => VariableInfo.decodes p
  have dreturn (v : Json) (_ : sizeOf v < sizeOf j) := Check.decodes_optional (TypeInfo.decodes v)
  apply decodes_record
  · intro f hf
    exact exists_object hf
  · rintro fs rfl hs
    have hc : RecordClass.functionInfo.Complete := by simp [RecordClass.Complete]
    obtain ⟨name, hname⟩ : ∃ a, Takes fs "name" (Check.text "name") a :=
      hs.takes hc (by simp [RecordClass.fields]) dname
    obtain ⟨address, haddress⟩ : ∃ a, Takes fs "address" (Check.word "address") a :=
      hs.takes hc (by simp [RecordClass.fields]) daddress
    obtain ⟨size, hsize⟩ : ∃ a, Takes fs "size" (Check.optional (Check.word "size")) a :=
      hs.takes hc (by simp [RecordClass.fields]) dsize
    obtain ⟨parameters, hparameters⟩ :
        ∃ a, Takes fs "parameters" (readList "parameters" VariableInfo.ofJson) a :=
      hs.takes hc (by simp [RecordClass.fields]) dparameters
    obtain ⟨returnType, hreturn⟩ :
        ∃ a, Takes fs "return_type" (Check.optional TypeInfo.ofJson) a :=
      hs.takes hc (by simp [RecordClass.fields]) dreturn
    exact ⟨⟨name, address, size, parameters, returnType⟩,
      ofJson_object.mpr ⟨hname, haddress, hsize, hparameters, hreturn⟩⟩
  · rintro fs f rfl hf
    obtain ⟨hname, haddress, hsize, hparameters, hreturn⟩ := ofJson_object.mp hf
    refine ⟨_, rfl, ?_⟩
    exact .cons (hname.writes dname) (.cons (haddress.writes daddress)
      (.cons (hsize.writes dsize) (.cons (hparameters.writes dparameters)
        (.cons (hreturn.writes dreturn) .nil))))

theorem ElfInfo.ofJson_object {fs : List (Text × Json)} {e : ElfInfo} :
    ofJson (.object fs) = .ok e ↔
      Takes fs "architecture" Check.member e.architecture ∧
      Takes fs "entry_point" (Check.word "entry_point") e.entryPoint ∧
      Takes fs "sections" (readList "sections" (Check.text "sections")) e.sections ∧
      Takes fs "file_type" Check.member e.fileType ∧
      Takes fs "endianness" Check.member e.byteOrder ∧
      Takes fs "functions" (readList "functions" FunctionInfo.ofJson) e.functions ∧
      Takes fs "variables" (readList "variables" VariableInfo.ofJson) e.globals ∧
      Takes fs "types" (readList "types" TypeInfo.ofJson) e.types := by
  have hsections (ps : List (Part (.object fs))) (ts : List Text) :
      Check.texts "sections" (ps.map (·.val)) = .ok ts ↔
        ps.mapM (fun p => Check.text "sections" p.val) = .ok ts := by
    rw [Check.texts_eq_ok, List.mapM_map]
    rfl
  simp only [ofJson, Except.bind_eq_ok, exists_field, exists_listField, exists_prop, hsections,
    Takes]
  constructor
  · rintro ⟨a, ha, architecture, harchitecture, p, hp, ps, hps, k, hk, fileType, hkind, o, ho,
      byteOrder, horder, f, hf, functions, hfunctions, g, hg, globals, hglobals, t, ht, types,
      htypes, entryPoint, hentry, sections, hsections, heq⟩
    cases heq
    obtain ⟨s, hs, ts, hts, rfl⟩ := exists_listField.mp ⟨ps, hps, sections, hsections, rfl⟩
    exact ⟨⟨a, ha, harchitecture⟩, ⟨p, hp, hentry⟩, ⟨s, hs, hts⟩, ⟨k, hk, hkind⟩, ⟨o, ho, horder⟩,
      ⟨f, hf, hfunctions⟩, ⟨g, hg, hglobals⟩, ⟨t, ht, htypes⟩⟩
  · rintro ⟨⟨a, ha, harchitecture⟩, ⟨p, hp, hentry⟩, ⟨s, hs, hts⟩, ⟨k, hk, hkind⟩, ⟨o, ho, horder⟩,
      ⟨f, hf, hfunctions⟩, ⟨g, hg, hglobals⟩, ⟨t, ht, htypes⟩⟩
    obtain ⟨ps, hps, ts, hsections, rfl⟩ := exists_listField.mpr ⟨s, hs, e.sections, hts, rfl⟩
    exact ⟨a, ha, e.architecture, harchitecture, p, hp, ps, hps, k, hk, e.fileType, hkind, o, ho,
      e.byteOrder, horder, f, hf, e.functions, hfunctions, g, hg, e.globals, hglobals, t, ht,
      e.types, htypes, e.entryPoint, hentry, e.sections, hsections, rfl⟩

theorem ElfInfo.decodes (j : Json) : Decodes ElfInfo.ofJson (·.toJson) (.record .elfInfo) j := by
  have darchitecture (v : Json) (_ : sizeOf v < sizeOf j) :=
    Check.decodes_member (α := Architecture) v
  have dentry (v : Json) (_ : sizeOf v < sizeOf j) := Check.decodes_word "entry_point" v
  have dsections (v : Json) (_ : sizeOf v < sizeOf j) :=
    decodes_list "sections" (j := v) fun t _ => Check.decodes_text "sections" t
  have dkind (v : Json) (_ : sizeOf v < sizeOf j) := Check.decodes_member (α := FileKind) v
  have dorder (v : Json) (_ : sizeOf v < sizeOf j) := Check.decodes_member (α := ByteOrder) v
  have dfunctions (v : Json) (_ : sizeOf v < sizeOf j) :=
    decodes_list "functions" (j := v) fun f _ => FunctionInfo.decodes f
  have dglobals (v : Json) (_ : sizeOf v < sizeOf j) :=
    decodes_list "variables" (j := v) fun g _ => VariableInfo.decodes g
  have dtypes (v : Json) (_ : sizeOf v < sizeOf j) :=
    decodes_list "types" (j := v) fun t _ => TypeInfo.decodes t
  apply decodes_record
  · intro e he
    exact exists_object he
  · rintro fs rfl hs
    have hc : RecordClass.elfInfo.Complete := by simp [RecordClass.Complete]
    obtain ⟨architecture, harchitecture⟩ : ∃ a, Takes fs "architecture" Check.member a :=
      hs.takes hc (by simp [RecordClass.fields]) darchitecture
    obtain ⟨entryPoint, hentry⟩ : ∃ a, Takes fs "entry_point" (Check.word "entry_point") a :=
      hs.takes hc (by simp [RecordClass.fields]) dentry
    obtain ⟨sections, hsections⟩ :
        ∃ a, Takes fs "sections" (readList "sections" (Check.text "sections")) a :=
      hs.takes hc (by simp [RecordClass.fields]) dsections
    obtain ⟨fileType, hkind⟩ : ∃ a, Takes fs "file_type" Check.member a :=
      hs.takes hc (by simp [RecordClass.fields]) dkind
    obtain ⟨byteOrder, horder⟩ : ∃ a, Takes fs "endianness" Check.member a :=
      hs.takes hc (by simp [RecordClass.fields]) dorder
    obtain ⟨functions, hfunctions⟩ :
        ∃ a, Takes fs "functions" (readList "functions" FunctionInfo.ofJson) a :=
      hs.takes hc (by simp [RecordClass.fields]) dfunctions
    obtain ⟨globals, hglobals⟩ :
        ∃ a, Takes fs "variables" (readList "variables" VariableInfo.ofJson) a :=
      hs.takes hc (by simp [RecordClass.fields]) dglobals
    obtain ⟨types, htypes⟩ : ∃ a, Takes fs "types" (readList "types" TypeInfo.ofJson) a :=
      hs.takes hc (by simp [RecordClass.fields]) dtypes
    exact ⟨⟨architecture, entryPoint, sections, fileType, byteOrder, functions, globals, types⟩,
      ofJson_object.mpr ⟨harchitecture, hentry, hsections, hkind, horder, hfunctions, hglobals,
        htypes⟩⟩
  · rintro fs e rfl he
    obtain ⟨harchitecture, hentry, hsections, hkind, horder, hfunctions, hglobals, htypes⟩ :=
      ofJson_object.mp he
    refine ⟨_, rfl, ?_⟩
    exact .cons (harchitecture.writes darchitecture) (.cons (hentry.writes dentry)
      (.cons (hsections.writes dsections) (.cons (hkind.writes dkind) (.cons (horder.writes dorder)
        (.cons (hfunctions.writes dfunctions) (.cons (hglobals.writes dglobals)
          (.cons (htypes.writes dtypes) .nil)))))))

theorem ThreadInfo.ofJson_object {fs : List (Text × Json)} {t : ThreadInfo} :
    ofJson (.object fs) = .ok t ↔
      Takes fs "thread_id" (fun v => Int.toNat <$> Check.integerInRange "thread_id" (some 0) none v)
        t.id ∧
      Takes fs "registers" (readList "registers" Check.byte) t.registers := by
  simp only [ofJson, Except.bind_eq_ok, exists_field, exists_listField, exists_prop, Takes]
  constructor
  · rintro ⟨i, hi, r, hr, registers, hregisters, n, hn, heq⟩
    cases heq
    exact ⟨⟨i, hi, by rw [hn]; rfl⟩, ⟨r, hr, hregisters⟩⟩
  · rintro ⟨⟨i, hi, hid⟩, ⟨r, hr, hregisters⟩⟩
    rw [map_eq_pure_bind] at hid
    obtain ⟨n, hn, heq⟩ := Except.bind_eq_ok.mp hid
    have hn' : n.toNat = t.id := Except.ok.inj heq
    exact ⟨i, hi, r, hr, t.registers, hregisters, n, hn, by rw [hn']; rfl⟩

theorem ThreadInfo.decodes (j : Json) :
    Decodes ThreadInfo.ofJson (·.toJson) (.record .threadInfo) j := by
  have did (v : Json) (_ : sizeOf v < sizeOf j) :
      Decodes (fun v => Int.toNat <$> Check.integerInRange "thread_id" (some 0) none v)
        (fun n => .int n) (.integer (some 0) none) v := by
    apply (Check.decodes_integerInRange "thread_id" (some 0) none v).map
    intro n hn
    obtain ⟨-, low, -⟩ := Check.integerInRange_eq_ok.mp hn
    rw [Int.toNat_of_nonneg (low 0 rfl)]
  have dregisters (v : Json) (_ : sizeOf v < sizeOf j) :=
    decodes_list "registers" (j := v) fun b _ => Check.decodes_byte b
  apply decodes_record
  · intro t ht
    exact exists_object ht
  · rintro fs rfl hs
    have hc : RecordClass.threadInfo.Complete := by simp [RecordClass.Complete]
    obtain ⟨id, hid⟩ : ∃ a, Takes fs "thread_id" _ a :=
      hs.takes hc (by simp [RecordClass.fields]) did
    obtain ⟨registers, hregisters⟩ :
        ∃ a, Takes fs "registers" (readList "registers" Check.byte) a :=
      hs.takes hc (by simp [RecordClass.fields]) dregisters
    exact ⟨⟨id, registers⟩, ofJson_object.mpr ⟨hid, hregisters⟩⟩
  · rintro fs t rfl ht
    obtain ⟨hid, hregisters⟩ := ofJson_object.mp ht
    refine ⟨_, rfl, ?_⟩
    exact .cons (hid.writes did) (.cons (hregisters.writes dregisters) .nil)

theorem CoreInfo.ofJson_object {fs : List (Text × Json)} {c : CoreInfo} :
    ofJson (.object fs) = .ok c ↔
      Takes fs "architecture" Check.member c.architecture ∧
      Takes fs "threads" (fun v => readList "threads" ThreadInfo.ofJson v >>= nonempty)
        c.threads := by
  simp only [ofJson, Except.bind_eq_ok, exists_field, exists_listField, exists_prop, Takes,
    nonempty_eq_ok]
  constructor
  · rintro ⟨a, ha, architecture, harchitecture, t, ht, threads, hthreads, heq⟩
    cases threads with
    | nil => cases heq
    | cons first others =>
      cases heq
      exact ⟨⟨a, ha, harchitecture⟩, ⟨t, ht, _, hthreads, rfl, List.cons_ne_nil _ _⟩⟩
  · rintro ⟨⟨a, ha, harchitecture⟩, ⟨t, ht, _, hthreads, rfl, -⟩⟩
    exact ⟨a, ha, c.architecture, harchitecture, t, ht, c.threads, hthreads, rfl⟩

theorem CoreInfo.decodes (j : Json) : Decodes CoreInfo.ofJson (·.toJson) (.record .coreInfo) j := by
  have darchitecture (v : Json) (_ : sizeOf v < sizeOf j) :=
    Check.decodes_member (α := Architecture) v
  have dthreads (v : Json) (_ : sizeOf v < sizeOf j) :=
    (decodes_list "threads" (j := v) fun t _ => ThreadInfo.decodes t).nonempty
  apply decodes_record
  · intro c h
    exact exists_object h
  · rintro fs rfl hs
    have hc : RecordClass.coreInfo.Complete := by simp [RecordClass.Complete]
    obtain ⟨architecture, harchitecture⟩ : ∃ a, Takes fs "architecture" Check.member a :=
      hs.takes hc (by simp [RecordClass.fields]) darchitecture
    obtain ⟨threads, hthreads⟩ : ∃ a, Takes fs "threads" _ a :=
      hs.takes hc (by simp [RecordClass.fields]) dthreads
    cases threads with
    | nil =>
      obtain ⟨v, -, hv⟩ := hthreads
      obtain ⟨as, -, heq⟩ := Except.bind_eq_ok.mp hv
      obtain ⟨rfl, hne⟩ := nonempty_eq_ok.mp heq
      exact absurd rfl hne
    | cons first others =>
      exact ⟨⟨architecture, first, others⟩, ofJson_object.mpr ⟨harchitecture, hthreads⟩⟩
  · rintro fs c rfl h
    obtain ⟨harchitecture, hthreads⟩ := ofJson_object.mp h
    refine ⟨_, rfl, ?_⟩
    exact .cons (harchitecture.writes darchitecture) (.cons (hthreads.writes dthreads) .nil)

theorem AnalysisResult.ofJson_object {fs : List (Text × Json)} {r : AnalysisResult} :
    ofJson (.object fs) = .ok r ↔
      Check.optional ElfInfo.ofJson (part "elf_info" fs) = .ok r.elfInfo ∧
      Check.optional CoreInfo.ofJson (part "coredump_info" fs) = .ok r.coreInfo := by
  simp only [ofJson, Except.bind_eq_ok]
  constructor
  · rintro ⟨elfInfo, helf, coreInfo, hcore, heq⟩
    cases heq
    exact ⟨helf, hcore⟩
  · rintro ⟨helf, hcore⟩
    exact ⟨r.elfInfo, helf, r.coreInfo, hcore, rfl⟩

theorem AnalysisResult.decodes (j : Json) :
    Decodes AnalysisResult.ofJson (·.toJson) (.record .analysisResult) j := by
  have delf (v : Json) := Check.decodes_optional (ElfInfo.decodes v)
  have dcore (v : Json) := Check.decodes_optional (CoreInfo.decodes v)
  cases j with
  | object fs =>
    constructor
    · intro hs
      have aelf : (Shape.optional (.record .elfInfo)).Accepts (part "elf_info" fs) :=
        hs.part (by simp [RecordClass.fields])
      have acore : (Shape.optional (.record .coreInfo)).Accepts (part "coredump_info" fs) :=
        hs.part (by simp [RecordClass.fields])
      obtain ⟨elfInfo, helf⟩ := (delf _).complete aelf
      obtain ⟨coreInfo, hcore⟩ := (dcore _).complete acore
      exact ⟨⟨elfInfo, coreInfo⟩, ofJson_object.mpr ⟨helf, hcore⟩⟩
    · intro r hr
      obtain ⟨helf, hcore⟩ := ofJson_object.mp hr
      obtain ⟨aelf, welf⟩ := (delf _).sound _ helf
      obtain ⟨acore, wcore⟩ := (dcore _).sound _ hcore
      constructor
      · apply accepts_of_parts
        · simp [RecordClass.Complete]
        · simp [RecordClass.fields, aelf, acore]
      · rw [Shape.clean_record]
        simp only [RecordClass.fields, List.map_cons, List.map_nil, ← welf, ← wcore]
        rfl
  | _ =>
    constructor
    · nofun
    · nofun

theorem RecordError.kind_cases (e : RecordError) : e.kind = .type ∨ e.kind = .value := by
  cases e.kind with
  | type => exact .inl rfl
  | value => exact .inr rfl

namespace RecordClass

/-- The records of a class. -/
def Record : RecordClass → Type
  | .typeInfo => TypeInfo
  | .memberInfo => MemberInfo
  | .variableInfo => VariableInfo
  | .functionInfo => FunctionInfo
  | .elfInfo => ElfInfo
  | .threadInfo => ThreadInfo
  | .coreInfo => CoreInfo
  | .analysisResult => AnalysisResult

def ofJson : (c : RecordClass) → Json → Except RecordError c.Record
  | .typeInfo => TypeInfo.ofJson
  | .memberInfo => MemberInfo.ofJson
  | .variableInfo => VariableInfo.ofJson
  | .functionInfo => FunctionInfo.ofJson
  | .elfInfo => ElfInfo.ofJson
  | .threadInfo => ThreadInfo.ofJson
  | .coreInfo => CoreInfo.ofJson
  | .analysisResult => AnalysisResult.ofJson

def toJson : (c : RecordClass) → c.Record → Json
  | .typeInfo => TypeInfo.toJson
  | .memberInfo => MemberInfo.toJson
  | .variableInfo => VariableInfo.toJson
  | .functionInfo => FunctionInfo.toJson
  | .elfInfo => ElfInfo.toJson
  | .threadInfo => ThreadInfo.toJson
  | .coreInfo => CoreInfo.toJson
  | .analysisResult => AnalysisResult.toJson

theorem decodes (c : RecordClass) (j : Json) : Decodes c.ofJson c.toJson (.record c) j := by
  cases c with
  | typeInfo => exact TypeInfo.decodes j
  | memberInfo => exact MemberInfo.decodes j
  | variableInfo => exact VariableInfo.decodes j
  | functionInfo => exact FunctionInfo.decodes j
  | elfInfo => exact ElfInfo.decodes j
  | threadInfo => exact ThreadInfo.decodes j
  | coreInfo => exact CoreInfo.decodes j
  | analysisResult => exact AnalysisResult.decodes j

/-- A value is read as a record of a class exactly where the grammar has it, and it is written
again as the cleaned value; every other value is refused for a type or for a value. -/
theorem ofJson_grammar (c : RecordClass) (j : Json) :
    ((Shape.record c).Accepts j ∧
        ∃ r, c.ofJson j = .ok r ∧ c.toJson r = (Shape.record c).clean j) ∨
      (¬(Shape.record c).Accepts j ∧
        ∃ e, c.ofJson j = .error e ∧ (e.kind = .type ∨ e.kind = .value)) := by
  obtain ⟨complete, sound⟩ := c.decodes j
  cases h : c.ofJson j with
  | ok r =>
    obtain ⟨haccepts, hclean⟩ := sound r h
    exact .inl ⟨haccepts, r, rfl, hclean⟩
  | error e =>
    refine .inr ⟨?_, e, rfl, e.kind_cases⟩
    intro haccepts
    obtain ⟨r, hr⟩ := complete haccepts
    cases h.symm.trans hr

end RecordClass

end ElfScope
