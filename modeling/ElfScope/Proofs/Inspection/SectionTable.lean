import Mathlib
import ElfScope.Proofs.Inspection.SectionNames

/-! # The section table under any use

Entries are listed by any number of listings at a time, in full or in part, and looked up by name. The
table and the sections by name are kept from the first request on. They are what the file gives, so no
answer depends on what was asked before, and the table is decoded once.
-/
namespace ElfScope
open Elf

/-! ### Entries and first sections -/

namespace SectionEntry

/-- An entry has no section just where its name is missing. -/
theorem found_read_eq_none {f : File} {index : Nat} :
    (read f (nameTableSize f).1 index).found = none ↔ NameMissing f index := by
  constructor
  · intro hnone
    rcases read_cases f index with ⟨-, hmissing⟩ | ⟨s, table, -, -, -, hfound⟩
    · exact hmissing
    · rw [hfound] at hnone
      cases hnone
  · have hsize := nameTableSize_eq f
    have hsizeNone (h : (nameTableSize f).1 = none) :
        (read f (nameTableSize f).1 index).found = none := by
      unfold read
      rw [h]
      cases f.section? index <;> rfl
    intro hmissing
    cases hmissing with
    | unread h =>
      unfold read
      rw [h]
    | noTable h => exact hsizeNone (by rw [hsize, if_pos h, ite_self])
    | firstUnread h hfirst => exact hsizeNone (by rw [hsize, if_pos ⟨h, hfirst⟩])
    | tableUnread h =>
      refine hsizeNone ?_
      rw [hsize, h]
      simp
    | outside s table h htable hname =>
      rw [htable] at hsize
      split_ifs at hsize
      · exact hsizeNone hsize
      · exact hsizeNone hsize
      · unfold read
        rw [h, hsize]
        simp only [Option.map_some]
        rw [if_neg (not_lt.mpr hname)]

theorem entriesOf_eq (f : File) : Inspection.entriesOf f =
    (List.range (f.sectionCount?.getD 0)).map (read f (nameTableSize f).1) := by
  unfold Inspection.entriesOf readAll
  cases f.sectionCount? with
  | none => rfl
  | some count =>
    dsimp only
    split_ifs with hpositive
    · rfl
    · rw [Nat.eq_zero_of_not_pos hpositive]
      rfl

/-- All that is reported of the table is a warning. -/
theorem level_of_mem_readAll {f : File} {r : LogRecord} (h : r ∈ (readAll f).2) :
    r.level = .warning := by
  have hsize {r : LogRecord} (h : r ∈ (nameTableSize f).2) : r.level = .warning := by
    unfold nameTableSize at h
    extract_lets failed index at h
    clear_value index
    have hfailed (h : r ∈ failed.2) : r.level = .warning := by
      obtain rfl := List.mem_singleton.mp h
      rfl
    split at h
    · exact hfailed h
    · exact absurd h List.not_mem_nil
    · split at h
      · exact absurd h List.not_mem_nil
      · exact hfailed h
  unfold readAll at h
  cases hcount : f.sectionCount? with
  | none =>
    rw [hcount] at h
    obtain rfl := List.mem_singleton.mp h
    rfl
  | some count =>
    rw [hcount] at h
    dsimp only at h
    rcases List.mem_append.mp h with hnames | hunread
    · split_ifs at hnames
      · exact hsize hnames
      · cases hnames
    · obtain ⟨e, -, rfl⟩ := List.mem_map.mp hunread
      rfl

end SectionEntry

namespace Inspection

/-- The first entry of a name that has a section. Entries without one are passed over. -/
def IsFirst (entries : List SectionEntry) (name : Text) (k : Nat) (s : Section) : Prop :=
  ∃ before after, entries = before ++ ⟨k, name, some s⟩ :: after ∧
    ∀ e ∈ before, e.name = name → e.found = none

theorem firstOf_eq_some {f : File} {name : Text} {k : Nat} {s : Section} :
    firstOf f name = some (k, s) ↔ IsFirst (entriesOf f) name k s := by
  unfold firstOf IsFirst
  rw [List.findSome?_eq_some_iff]
  constructor
  · rintro ⟨before, e, after, hentries, hfound, hbefore⟩
    split_ifs at hfound with hname
    obtain ⟨s', hs', hpair⟩ := Option.map_eq_some_iff.mp hfound
    cases hpair
    refine ⟨before, after, ?_, fun e' he' hname' => ?_⟩
    · rw [hentries, ← hname, ← hs']
    · have hnone := hbefore e' he'
      rw [if_pos hname'] at hnone
      exact Option.map_eq_none_iff.mp hnone
  · rintro ⟨before, after, hentries, hbefore⟩
    refine ⟨before, ⟨k, name, some s⟩, after, hentries, if_pos rfl, fun e he => ?_⟩
    split_ifs with hname
    · rw [hbefore e he hname]
      rfl
    · rfl

theorem firstOf_eq_none {f : File} {name : Text} :
    firstOf f name = none ↔ ∀ e ∈ entriesOf f, e.name = name → e.found = none := by
  unfold firstOf
  rw [List.findSome?_eq_none_iff]
  refine forall₂_congr fun e _ => ?_
  split_ifs with hname
  · rw [Option.map_eq_none_iff]
    exact (imp_iff_right hname).symm
  · exact iff_of_true rfl fun h => absurd h hname

end Inspection

/-! ### Listings -/

/-- A listing of the entries. What is left is known once the first entry was asked for. -/
structure Listing where
  left : Option (List SectionEntry)

/-- The next entry of a listing, if there is one. -/
def Listing.next (l : Listing) : Inspecting (Option SectionEntry × Listing) := do
  let left ← match l.left with
    | some left => pure left
    | none => Inspection.sections
  return (left.head?, { left := some left.tail })

/-- What can be asked of a section table. -/
inductive TableUse where
  | list
  /-- Asks a listing for its next entry. -/
  | next (k : Nat)
  | names
  | find (name : Text)
  | facts

inductive TableAnswer where
  | begun
  | entry (e : Option SectionEntry)
  | names (names : List Text)
  | found (s : Option (Nat × Section))
  | facts (facts : BinaryFacts)

/-- How often each listing was asked, after one more use. -/
def TableUse.count (asked : List Nat) : TableUse → List Nat
  | .list => asked ++ [0]
  | .next k => asked.modify k (· + 1)
  | _ => asked

def TableUse.asked (uses : List TableUse) : List Nat := uses.foldl TableUse.count []

namespace Inspection

/-- The next entry of one of the listings under way. -/
def nextAt (underway : List Listing) (k : Nat) :
    Inspecting (Option SectionEntry × List Listing) :=
  match underway[k]? with
  | none => return (none, underway)
  | some l => do
    let r ← l.next
    return (r.1, underway.set k r.2)

/-- The answer to a use, with the listings that are under way after it. -/
def answerUse (underway : List Listing) : TableUse → Inspecting (TableAnswer × List Listing)
  | .list => return (.begun, underway ++ [{ left := none }])
  | .next k => do
    let r ← nextAt underway k
    return (.entry r.1, r.2)
  | .names => return (.names (← sectionNames), underway)
  | .find name => return (.found (← section? name), underway)
  | .facts => return (.facts (← facts), underway)

def listingsAfter (underway : List Listing) (uses : List TableUse) : Inspecting (List Listing) :=
  uses.foldlM (fun underway use => return (← answerUse underway use).2) underway

/-- The answer to a use after others. -/
def answerAfter (uses : List TableUse) (use : TableUse) : Inspecting TableAnswer := do
  let underway ← listingsAfter [] uses
  return (← answerUse underway use).1

/-- What is kept after some uses. -/
def afterUses (i : Inspection) (uses : List TableUse) : Inspection :=
  ((listingsAfter [] uses).run i).2

/-- What a new inspection answers. A listing that was asked before is given as many entries. -/
def freshAnswer (i : Inspection) (asked : List Nat) : TableUse → TableAnswer
  | .list => .begun
  | .next k => .entry (asked[k]?.bind fun n => (sections.run i).1[n]?)
  | .names => .names (sectionNames.run i).1
  | .find name => .found ((section? name).run i).1
  | .facts => .facts (facts.run i).1

/-! ### Answers of the file -/

section
variable {f : File}

/-- A listing goes on with what is left of it, or from the start. -/
theorem answers_next (l : Listing) :
    Answers f l.next ((l.left.getD (entriesOf f)).head?,
      { left := some (l.left.getD (entriesOf f)).tail }) := by
  unfold Listing.next
  cases l.left with
  | some left => exact (answers_pure left).bind (answers_pure _)
  | none => exact (answers_sections f).bind (answers_pure _)

/-- Every listing has left what remains after the entries that were asked of it. -/
def Underway (f : File) (underway : List Listing) (asked : List Nat) : Prop :=
  underway.map (fun l => l.left.getD (entriesOf f)) = asked.map (entriesOf f).drop

theorem Underway.left_eq {underway : List Listing} {asked : List Nat} (h : Underway f underway asked)
    {k : Nat} {l : Listing} (hl : underway[k]? = some l) :
    ∃ n, asked[k]? = some n ∧ l.left.getD (entriesOf f) = (entriesOf f).drop n := by
  have hk := congrArg (·[k]?) h
  simp only [List.getElem?_map, hl, Option.map_some] at hk
  obtain ⟨n, hn, hleft⟩ := Option.map_eq_some_iff.mp hk.symm
  exact ⟨n, hn, hleft.symm⟩

theorem Underway.asked_eq_none {underway : List Listing} {asked : List Nat}
    (h : Underway f underway asked) {k : Nat} (hk : underway[k]? = none) : asked[k]? = none := by
  have hlength := congrArg List.length h
  rw [List.length_map, List.length_map] at hlength
  rw [List.getElem?_eq_none_iff] at hk ⊢
  omega

theorem Underway.begin {underway : List Listing} {asked : List Nat} (h : Underway f underway asked) :
    Underway f (underway ++ [{ left := none }]) (asked ++ [0]) := by
  unfold Underway at h ⊢
  rw [List.map_append, List.map_append, h]
  rfl

theorem Underway.advance {underway : List Listing} {asked : List Nat} (h : Underway f underway asked)
    {k : Nat} {l : Listing} (hl : underway[k]? = some l) :
    Underway f (underway.set k { left := some (l.left.getD (entriesOf f)).tail })
      (asked.modify k (· + 1)) := by
  obtain ⟨n, hn, hleft⟩ := h.left_eq hl
  unfold Underway at h ⊢
  rw [List.map_set, h]
  apply List.ext_getElem?
  intro j
  rw [List.getElem?_set, List.getElem?_map, List.getElem?_map, List.getElem?_modify]
  by_cases hj : k = j
  · subst hj
    have hlength : k < (asked.map (entriesOf f).drop).length := by
      rw [List.length_map]
      exact (List.getElem?_eq_some_iff.mp hn).1
    rw [if_pos rfl, if_pos hlength, hn, hleft, Option.getD_some, List.tail_drop]
    simp
  · simp [hj]

/-- The answers of the file, by how often each listing was asked. -/
def answerOf (f : File) (asked : List Nat) : TableUse → TableAnswer
  | .list => .begun
  | .next k => .entry (asked[k]?.bind fun n => (entriesOf f)[n]?)
  | .names => .names ((entriesOf f).map (·.name))
  | .find name => .found (firstOf f name)
  | .facts => .facts (factsOf f)

theorem answers_nextAt {underway : List Listing} {asked : List Nat} (h : Underway f underway asked)
    (k : Nat) :
    ∃ underway', Answers f (nextAt underway k)
        (asked[k]?.bind fun n => (entriesOf f)[n]?, underway') ∧
      Underway f underway' (asked.modify k (· + 1)) := by
  unfold nextAt
  cases hl : underway[k]? with
  | none =>
    have hnone := h.asked_eq_none hl
    have hsame : asked.modify k (· + 1) = asked :=
      List.modify_eq_self (List.getElem?_eq_none_iff.mp hnone)
    rw [hnone, hsame]
    exact ⟨underway, answers_pure _, h⟩
  | some l =>
    obtain ⟨n, hn, hleft⟩ := h.left_eq hl
    refine ⟨_, ?_, h.advance hl⟩
    rw [hn, Option.bind_some, ← List.head?_drop, ← hleft]
    exact (answers_next l).bind (answers_pure _)

/-- One use is answered as the file has it, and the listings stay where they should be. -/
theorem answers_answerUse {underway : List Listing} {asked : List Nat}
    (h : Underway f underway asked) (use : TableUse) :
    ∃ underway', Answers f (answerUse underway use) (answerOf f asked use, underway') ∧
      Underway f underway' (use.count asked) := by
  cases use with
  | list => exact ⟨_, answers_pure _, h.begin⟩
  | next k =>
    obtain ⟨underway', hnext, hunderway'⟩ := answers_nextAt h k
    exact ⟨underway', hnext.bind (answers_pure _), hunderway'⟩
  | names => exact ⟨underway, (answers_sectionNames f).bind (answers_pure _), h⟩
  | find name => exact ⟨underway, (answers_section? f name).bind (answers_pure _), h⟩
  | facts => exact ⟨underway, (answers_facts f).bind (answers_pure _), h⟩

/-- A run of uses, by induction on it. -/
theorem answers_listingsAfter (uses : List TableUse) {underway : List Listing} {asked : List Nat}
    (h : Underway f underway asked) :
    ∃ underway', Answers f (listingsAfter underway uses) underway' ∧
      Underway f underway' (uses.foldl TableUse.count asked) := by
  induction uses generalizing underway asked with
  | nil => exact ⟨underway, answers_pure underway, h⟩
  | cons use uses ih =>
    obtain ⟨between, hstep, hbetween⟩ := answers_answerUse h use
    obtain ⟨underway', hrest, hunderway'⟩ := ih hbetween
    refine ⟨underway', ?_, hunderway'⟩
    unfold listingsAfter
    rw [List.foldlM_cons]
    refine Answers.bind ?_ hrest
    exact hstep.bind (answers_pure _)

theorem answers_answerAfter (uses : List TableUse) (use : TableUse) :
    Answers f (answerAfter uses use) (answerOf f (TableUse.asked uses) use) := by
  have hnew : Underway f [] [] := rfl
  obtain ⟨underway, hbefore, hunderway⟩ := answers_listingsAfter uses hnew
  obtain ⟨underway', hstep, -⟩ := answers_answerUse hunderway use
  exact hbefore.bind (hstep.bind (answers_pure _))

end

/-! ### The table is decoded once -/

def warnings (i : Inspection) : Log := i.log.filter (·.level = .warning)

/-- What happened to the table: nothing, or it was not there and was decoded, with all warnings. -/
inductive Decoding (i j : Inspection) : Prop where
  | kept (hfile : j.file = i.file) (htable : j.table = i.table) (hnamed : j.named = i.named)
      (hwarnings : j.warnings = i.warnings)
  | decoded (hfile : j.file = i.file) (hnone : i.table = none)
      (htable : j.table = some (entriesOf i.file))
      (hnamed : j.named = SectionEntry.byName (entriesOf i.file))
      (hwarnings : j.warnings = i.warnings ++ (SectionEntry.readAll i.file).2)

theorem Decoding.refl (i : Inspection) : Decoding i i := .kept rfl rfl rfl rfl

theorem Decoding.trans {i j k : Inspection} (h : Decoding i j) (h' : Decoding j k) :
    Decoding i k := by
  cases h with
  | kept hfile htable hnamed hwarnings =>
    cases h' with
    | kept hfile' htable' hnamed' hwarnings' =>
      exact .kept (hfile'.trans hfile) (htable'.trans htable) (hnamed'.trans hnamed)
        (hwarnings'.trans hwarnings)
    | decoded hfile' hnone htable' hnamed' hwarnings' =>
      rw [hfile] at htable' hnamed' hwarnings'
      exact .decoded (hfile'.trans hfile) (htable.symm.trans hnone) htable' hnamed'
        (hwarnings ▸ hwarnings')
  | decoded hfile hnone htable hnamed hwarnings =>
    cases h' with
    | kept hfile' htable' hnamed' hwarnings' =>
      exact .decoded (hfile'.trans hfile) hnone (htable'.trans htable) (hnamed'.trans hnamed)
        (hwarnings'.trans hwarnings)
    | decoded hfile' hnone' =>
      rw [htable] at hnone'
      cases hnone'

/-- An action that decodes the table at most once. -/
def DecodesOnce {α : Type} (act : Inspecting α) : Prop := ∀ i, Decoding i (act.run i).2

section
variable {α β : Type}

theorem decodesOnce_pure (a : α) : DecodesOnce (pure a) := Decoding.refl

theorem DecodesOnce.bind {act : Inspecting α} {next : α → Inspecting β} (h : DecodesOnce act)
    (hnext : ∀ a, DecodesOnce (next a)) : DecodesOnce (act >>= next) :=
  fun i => (h i).trans (hnext (act.run i).1 (act.run i).2)

theorem decodesOnce_get : DecodesOnce get := Decoding.refl

theorem decodesOnce_sections : DecodesOnce sections := by
  intro i
  cases htable : i.table with
  | some entries =>
    rw [run_sections_of_some htable]
    exact Decoding.refl i
  | none =>
    rw [run_sections_of_none htable]
    refine .decoded rfl htable rfl rfl ?_
    unfold warnings
    rw [show (i.withTable (SectionEntry.readAll i.file)).log =
      i.log ++ (SectionEntry.readAll i.file).2 from rfl, List.filter_append,
      List.filter_eq_self.mpr fun r hr => decide_eq_true (SectionEntry.level_of_mem_readAll hr)]

theorem decodesOnce_section? (name : Text) : DecodesOnce (section? name) := by
  intro i
  rw [run_section?]
  exact decodesOnce_sections i

theorem decodesOnce_sectionNames : DecodesOnce sectionNames :=
  decodesOnce_sections.bind fun _ => decodesOnce_pure _

theorem decodesOnce_report {level : Level} (h : level ≠ .warning) (logger message : Text) :
    DecodesOnce (report level logger message) := by
  intro i
  refine .kept rfl rfl rfl ?_
  unfold warnings
  have hlog : ((report level logger message).run i).2.log = i.log ++ [⟨level, logger, message⟩] := rfl
  rw [hlog, List.filter_append, List.filter_cons_of_neg (by simpa using h), List.filter_nil,
    List.append_nil]

theorem decodesOnce_facts : DecodesOnce facts :=
  decodesOnce_sectionNames.bind fun _ => decodesOnce_get.bind fun _ =>
    (decodesOnce_report (by decide) _ _).bind fun _ => decodesOnce_pure _

theorem decodesOnce_next (l : Listing) : DecodesOnce l.next := by
  unfold Listing.next
  cases l.left with
  | some left => exact (decodesOnce_pure left).bind fun _ => decodesOnce_pure _
  | none => exact decodesOnce_sections.bind fun _ => decodesOnce_pure _

theorem decodesOnce_answerUse (underway : List Listing) (use : TableUse) :
    DecodesOnce (answerUse underway use) := by
  cases use with
  | list => exact decodesOnce_pure _
  | next k =>
    have hnext : DecodesOnce (nextAt underway k) := by
      unfold nextAt
      cases underway[k]? with
      | none => exact decodesOnce_pure _
      | some l => exact (decodesOnce_next l).bind fun _ => decodesOnce_pure _
    exact hnext.bind fun _ => decodesOnce_pure _
  | names => exact decodesOnce_sectionNames.bind fun _ => decodesOnce_pure _
  | find name => exact (decodesOnce_section? name).bind fun _ => decodesOnce_pure _
  | facts => exact decodesOnce_facts.bind fun _ => decodesOnce_pure _

theorem decodesOnce_listingsAfter (underway : List Listing) (uses : List TableUse) :
    DecodesOnce (listingsAfter underway uses) := by
  induction uses generalizing underway with
  | nil => exact decodesOnce_pure underway
  | cons use uses ih =>
    unfold listingsAfter
    rw [List.foldlM_cons]
    exact ((decodesOnce_answerUse underway use).bind fun _ => decodesOnce_pure _).bind ih

end

theorem afterUses_append (i : Inspection) (uses more : List TableUse) :
    i.afterUses (uses ++ more) =
      ((listingsAfter ((listingsAfter [] uses).run i).1 more).run (i.afterUses uses)).2 := by
  unfold afterUses listingsAfter
  rw [List.foldlM_append]
  rfl

/-! ### Any use of the table -/

/-- One entry for each declared section, in order. An entry has no section just where its name is
missing, and is unnamed then. -/
structure TableOf (f : File) (entries : List SectionEntry) : Prop where
  length : entries.length = f.sectionCount?.getD 0
  index : ∀ (k : Nat) (e : SectionEntry), entries[k]? = some e → e.index = k
  missing : ∀ e ∈ entries, e.found = none ↔ NameMissing f e.index
  unnamed : ∀ e ∈ entries, e.found = none → e.name = SectionEntry.unnamed
  named : ∀ e ∈ entries, ∀ s, e.found = some s → f.section? e.index = some s ∧ e.name = s.name

theorem tableOf_entriesOf (f : File) : TableOf f (entriesOf f) where
  length := by rw [SectionEntry.entriesOf_eq, List.length_map, List.length_range]
  index k e he := by
    rw [SectionEntry.entriesOf_eq, List.getElem?_map] at he
    obtain ⟨index, hindex, rfl⟩ := Option.map_eq_some_iff.mp he
    obtain ⟨hlt, rfl⟩ := List.getElem?_eq_some_iff.mp hindex
    rw [List.getElem_range]
    rcases SectionEntry.read_cases f k with ⟨hread, -⟩ | ⟨s, table, -, -, -, hread⟩
    · rw [hread]
    · rw [hread]
  missing e he := by
    rw [← SectionEntry.found_read_eq_none, ← SectionEntry.mem_entriesOf he]
  unnamed e he hnone := by
    have hentry := SectionEntry.mem_entriesOf he
    rcases SectionEntry.read_cases f e.index with ⟨hread, -⟩ | ⟨s, table, -, -, -, hread⟩
    · exact congrArg SectionEntry.name (hentry.trans hread)
    · rw [hentry, hread] at hnone
      cases hnone
  named e he s hs := by
    have hentry := SectionEntry.mem_entriesOf he
    rcases SectionEntry.read_cases f e.index with ⟨hread, -⟩ | ⟨s', table, hs', -, -, hread⟩
    · rw [hentry, hread] at hs
      cases hs
    · have hfound := congrArg SectionEntry.found (hentry.trans hread)
      obtain rfl : s = s' := Option.some.inj (hs.symm.trans hfound)
      exact ⟨hs', congrArg SectionEntry.name (hentry.trans hread)⟩

/-- How an inspection answers what is asked of its section table. -/
structure TableLaws (i : Inspection) : Prop where
  /-- Whatever was asked before, and however far listings have come, a use is answered as by a new
  inspection. -/
  answers : ∀ uses use, ((answerAfter uses use).run i).1 = freshAnswer i (TableUse.asked uses) use
  entries : TableOf i.file (sections.run i).1
  /-- The section of a name is that of the first entry of the name that has one. -/
  found : ∀ name k s,
    ((section? name).run i).1 = some (k, s) ↔ IsFirst (sections.run i).1 name k s
  missing : ∀ name, ((section? name).run i).1 = none ↔
    ∀ e ∈ (sections.run i).1, e.name = name → e.found = none
  /-- The table is decoded at most once, -/
  decodedOnce : ∀ uses more, Decoding (i.afterUses uses) (i.afterUses (uses ++ more))
  /-- and not looked for in the file again. -/
  kept : ∀ uses, (i.afterUses uses).table ≠ none → ∀ other : File,
    sections.run { i.afterUses uses with file := other } =
      ((sections.run i).1, { i.afterUses uses with file := other })

/-- Whatever was asked before, the answers are those of one table, which is decoded at most once. -/
theorem table_coherent {data : Bytes} {role : Role} {source : Text} {i : Inspection}
    (h : ofBytes data role source = .ok i) : TableLaws i := by
  obtain ⟨-, hi⟩ := file_of_ofBytes h
  have hsections : (sections.run i).1 = entriesOf i.file := (answers_sections i.file i hi).1
  have hfind (name : Text) : ((section? name).run i).1 = firstOf i.file name :=
    (answers_section? i.file name i hi).1
  constructor
  case answers =>
    intro uses use
    rw [(answers_answerAfter uses use i hi).1]
    cases use with
    | list => rfl
    | next k =>
      unfold answerOf freshAnswer
      rw [hsections]
    | names => exact congrArg TableAnswer.names (answers_sectionNames i.file i hi).1.symm
    | find name => exact congrArg TableAnswer.found (hfind name).symm
    | facts => exact congrArg TableAnswer.facts (answers_facts i.file i hi).1.symm
  case entries => exact hsections ▸ tableOf_entriesOf i.file
  case found =>
    intro name k s
    rw [hfind, hsections]
    exact firstOf_eq_some
  case missing =>
    intro name
    rw [hfind, hsections]
    exact firstOf_eq_none
  case decodedOnce =>
    intro uses more
    rw [afterUses_append]
    exact decodesOnce_listingsAfter _ more _
  case kept =>
    intro uses htable other
    have hnew : Underway i.file [] [] := rfl
    obtain ⟨underway, hafter, -⟩ := answers_listingsAfter uses hnew
    obtain ⟨entries, hentries⟩ := Option.ne_none_iff_exists'.mp htable
    rw [hsections, ← (hafter i hi).2.1.table entries hentries]
    exact run_sections_of_some hentries

/-- Four sections: one whose name is not in the table of names, the table of names itself, one that is
really called `unnamed`, and one with the name of the table. -/
def tableFile : Bytes :=
  let l : Layout := ⟨false, .little⟩
  let header : FileHeader :=
    { type := 2, machine := 40, entry := 0, programOffset := 0, sectionOffset := 52,
      programEntrySize := 32, programCount := 0, sectionEntrySize := 40, sectionCount := 4,
      nameTableIndex := 1 }
  let outside : SectionHeader := { SectionHeader.blank with name := 99 }
  let table : SectionHeader :=
    { SectionHeader.blank with name := 8, type := 3, offset := 212, size := 10 }
  let named : SectionHeader := { SectionHeader.blank with name := 8 }
  l.identification ++ header.encode l ++
    (outside.encode l ++ table.encode l ++ SectionHeader.blank.encode l ++ named.encode l ++
      "unnamed".toUTF8.toList ++ [0, 97, 0])

/-- What is listed of an inspection, and the number of the section called `unnamed`. -/
def listed (i : Inspection) : List (Nat × Text × Bool) × Option Nat :=
  ((sections.run i).1.map fun e => (e.index, e.name, e.found.isSome),
    ((section? SectionEntry.unnamed).run i).1.map Prod.fst)

/-- A listing is begun and asked once; then the name of the entry without a section is looked for, the
names are listed, and a second listing is begun before the first goes on. -/
theorem table_coherent_tableFile :
    ∃ i, ofBytes tableFile .elf [] = .ok i ∧
      (sections.run i).1.map (fun e => (e.index, e.name, e.found.isSome)) =
        [(0, SectionEntry.unnamed, false), (1, Text.ofString "a", true),
          (2, SectionEntry.unnamed, true), (3, Text.ofString "a", true)] ∧
      ((answerAfter [.list, .next 0, .find SectionEntry.unnamed, .names, .list]
        (.next 0)).run i).1 = .entry ((sections.run i).1[1]?) ∧
      ∃ s, IsFirst (sections.run i).1 SectionEntry.unnamed 2 s := by
  have htold : (ofBytes tableFile .elf []).toOption.map listed =
      some ([(0, SectionEntry.unnamed, false), (1, Text.ofString "a", true),
        (2, SectionEntry.unnamed, true), (3, Text.ofString "a", true)], some 2) := by
    decide +kernel
  obtain ⟨i, hi, hlisted⟩ := Option.map_eq_some_iff.mp htold
  cases hopen : ofBytes tableFile .elf [] with
  | error e =>
    rw [hopen] at hi
    cases hi
  | ok i' =>
    rw [hopen] at hi
    obtain rfl := Option.some.inj hi
    have hlaws := table_coherent hopen
    have hnumber := congrArg Prod.snd hlisted
    obtain ⟨⟨k, s⟩, hfound, rfl⟩ := Option.map_eq_some_iff.mp hnumber
    refine ⟨i', rfl, congrArg Prod.fst hlisted, ?_, s, ?_⟩
    · exact hlaws.answers [.list, .next 0, .find SectionEntry.unnamed, .names, .list] (.next 0)
    · exact (hlaws.found SectionEntry.unnamed 2 s).mp hfound

end Inspection

end ElfScope
