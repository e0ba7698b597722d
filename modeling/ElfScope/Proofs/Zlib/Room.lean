import Mathlib
import ElfScope.Zlib.Inflate

/-! # Room for the content

A stream is inflated alike without a limit and with room for some bytes, up to where there is no more
room: no step looks at the room but to write the next byte, or to stop because there is a next byte.
-/
namespace ElfScope.Zlib

namespace Inflate
variable {α β : Type}

/-- What a run does with room for some bytes, beside what it does without a limit. It does the same where
there is room for all that is added, of which it takes up just as much. Otherwise it stops where the room
ends. Before an error it may also stop where the room is just used up. What succeeds without a limit adds
`least` bytes at least. -/
inductive Follows (least : Nat) (before : Bytes) (room : Nat) :
    EStateM.Result Halt Inflater α → EStateM.Result Halt Inflater α → Prop
  | ok {a : α} {bits : List Bool} {out : Array UInt8} {added : Bytes} (hleast : least ≤ added.length)
      (hout : out.toList = before ++ added) (hroom : added.length ≤ room) :
      Follows least before room (.ok a ⟨bits, out, none⟩)
        (.ok a ⟨bits, out, some (room - added.length)⟩)
  | error {h : Halt} {bits : List Bool} {out : Array UInt8} {added : Bytes}
      (hout : out.toList = before ++ added) (hroom : added.length ≤ room) :
      Follows least before room (.error h ⟨bits, out, none⟩)
        (.error h ⟨bits, out, some (room - added.length)⟩)
  | okStopped {a : α} {bits : List Bool} {out : Array UInt8} {s : Inflater} {added : Bytes}
      (hleast : least ≤ added.length) (hout : out.toList = before ++ added)
      (hroom : room < added.length) (hstop : s.output.toList = before ++ added.take room) :
      Follows least before room (.ok a ⟨bits, out, none⟩) (.error .full s)
  | errorStopped {h : Halt} {bits : List Bool} {out : Array UInt8} {s : Inflater} {added : Bytes}
      (hout : out.toList = before ++ added) (hroom : room ≤ added.length)
      (hstop : s.output.toList = before ++ added.take room) :
      Follows least before room (.error h ⟨bits, out, none⟩) (.error .full s)

/-- With room for any number of bytes the action follows what it does without a limit. -/
def Roomy (least : Nat) (act : Inflate α) : Prop :=
  ∀ bits out room, Follows least out.toList room (act ⟨bits, out, none⟩) (act ⟨bits, out, some room⟩)

/-! ### Steps -/

theorem Follows.mono {least least' room : Nat} {before : Bytes}
    {free tied : EStateM.Result Halt Inflater α} (h : Follows least before room free tied)
    (hle : least' ≤ least) : Follows least' before room free tied := by
  cases h with
  | ok hleast hout hroom => exact .ok (hle.trans hleast) hout hroom
  | error hout hroom => exact .error hout hroom
  | okStopped hleast hout hroom hstop => exact .okStopped (hle.trans hleast) hout hroom hstop
  | errorStopped hout hroom hstop => exact .errorStopped hout hroom hstop

theorem Roomy.mono {least least' : Nat} {act : Inflate α} (h : Roomy least act)
    (hle : least' ≤ least) : Roomy least' act :=
  fun bits out room => (h bits out room).mono hle

/-- Nothing is written. -/
theorem follows_ok (a : α) (bits : List Bool) (out : Array UInt8) (room : Nat) :
    Follows 0 out.toList room (.ok a ⟨bits, out, none⟩) (.ok a ⟨bits, out, some room⟩) :=
  @Follows.ok α 0 _ room a bits out [] (Nat.zero_le _) (List.append_nil _).symm (Nat.zero_le _)

theorem follows_error (least : Nat) (h : Halt) (bits : List Bool) (out : Array UInt8) (room : Nat) :
    Follows least out.toList room (.error h ⟨bits, out, none⟩ : EStateM.Result Halt Inflater α)
      (.error h ⟨bits, out, some room⟩) :=
  @Follows.error α least _ room h bits out [] (List.append_nil _).symm (Nat.zero_le _)

/-- Where the room is used up and more is to be written, or an error comes, the run may stop. -/
theorem Follows.stop {least room : Nat} {before : Bytes} {free tied : EStateM.Result Halt Inflater α}
    (h : Follows least before room free tied) {first : Bytes} {s : Inflater} {more : Nat}
    {start : Bytes} (hbefore : before = start ++ first) (hfull : more < first.length ∨
      more = first.length ∧ 0 < least) (hstop : s.output.toList = start ++ first.take more) :
    Follows (first.length + least) start more free (.error .full s) := by
  have hout {out : Array UInt8} {added : Bytes} (hout : out.toList = before ++ added) :
      out.toList = start ++ (first ++ added) := by
    rw [hout, hbefore, List.append_assoc]
  have hmore (added : Bytes) : s.output.toList = start ++ (first ++ added).take more := by
    rw [hstop, List.take_append_of_le_length (by omega)]
  cases h with
  | ok hleast hfree _ =>
    exact .okStopped (by rw [List.length_append]; omega) (hout hfree)
      (by rw [List.length_append]; omega) (hmore _)
  | error hfree _ =>
    exact .errorStopped (hout hfree) (by rw [List.length_append]; omega) (hmore _)
  | okStopped hleast hfree _ _ =>
    exact .okStopped (by rw [List.length_append]; omega) (hout hfree)
      (by rw [List.length_append]; omega) (hmore _)
  | errorStopped hfree _ _ =>
    exact .errorStopped (hout hfree) (by rw [List.length_append]; omega) (hmore _)

/-- A run that goes on after some bytes follows from where they end. -/
theorem Follows.after {least least' room : Nat} {before first out : Bytes}
    {free tied : EStateM.Result Halt Inflater α}
    (h : Follows least out (room - first.length) free tied) (hfirst : least' ≤ first.length)
    (hout : out = before ++ first) (hroom : first.length ≤ room) :
    Follows (least' + least) before room free tied := by
  have hwritten {array : Array UInt8} {added : Bytes} (harray : array.toList = out ++ added) :
      array.toList = before ++ (first ++ added) := by
    rw [harray, hout, List.append_assoc]
  have hcut (added : Bytes) : out ++ added.take (room - first.length) =
      before ++ (first ++ added).take room := by
    rw [List.take_append, List.take_of_length_le hroom, hout, List.append_assoc]
  have hleft (added : Bytes) :
      room - first.length - added.length = room - (first ++ added).length := by
    rw [List.length_append]
    omega
  cases h with
  | ok hleast hfree hfits =>
    rw [hleft]
    exact .ok (by rw [List.length_append]; omega) (hwritten hfree)
      (by rw [List.length_append]; omega)
  | error hfree hfits =>
    rw [hleft]
    exact .error (hwritten hfree) (by rw [List.length_append]; omega)
  | okStopped hleast hfree hfits hstop =>
    rw [hcut] at hstop
    exact .okStopped (by rw [List.length_append]; omega) (hwritten hfree)
      (by rw [List.length_append]; omega) hstop
  | errorStopped hfree hfits hstop =>
    rw [hcut] at hstop
    exact .errorStopped (hwritten hfree) (by rw [List.length_append]; omega) hstop

theorem roomy_pure (a : α) : Roomy 0 (pure a : Inflate α) := follows_ok a

theorem roomy_throw (least : Nat) (h : Halt) : Roomy least (throw h : Inflate α) :=
  follows_error least h

theorem Roomy.seq {least least' : Nat} {act : Inflate α} {next : α → Inflate β}
    (hact : Roomy least act) (hnext : ∀ a, Roomy least' (next a)) :
    Roomy (least + least') (act >>= next) := by
  intro bits out room
  have hfirst := hact bits out room
  change Follows _ _ _ (EStateM.bind act next _) (EStateM.bind act next _)
  unfold EStateM.bind
  generalize act ⟨bits, out, none⟩ = free at hfirst ⊢
  generalize act ⟨bits, out, some room⟩ = tied at hfirst ⊢
  cases hfirst with
  | ok hleast hout hroom => exact (hnext _ _ _ _).after hleast hout hroom
  | error hout hroom => exact .error hout hroom
  | okStopped hleast hout hroom hstop =>
    exact ((hnext _ _ _ 0).stop hout (.inl hroom) hstop).mono (Nat.add_le_add_right hleast _)
  | errorStopped hout hroom hstop => exact .errorStopped hout hroom hstop

theorem Roomy.bind {least : Nat} {act : Inflate α} {next : α → Inflate β} (hact : Roomy 0 act)
    (hnext : ∀ a, Roomy least (next a)) : Roomy least (act >>= next) := by
  have h := hact.seq hnext
  rw [Nat.zero_add] at h
  exact h

theorem Roomy.map {least : Nat} {act : Inflate α} (hact : Roomy least act) (g : α → β) :
    Roomy least (act >>= fun a => pure (g a)) :=
  hact.seq fun a => roomy_pure (g a)

/-- The bits that are left and the bytes that are written do not depend on the room. -/
theorem roomy_get {least : Nat} {next : Inflater → Inflate α}
    (hroom : ∀ s room, next { s with room } = next s) (hnext : ∀ s, Roomy least (next s)) :
    Roomy least (get >>= next) := by
  intro bits out room
  change Follows _ _ _ (next ⟨bits, out, none⟩ _) (next ⟨bits, out, some room⟩ _)
  rw [hroom ⟨bits, out, none⟩ (some room)]
  exact hnext ⟨bits, out, none⟩ bits out room

/-- Where at least one byte is written it is right to look first whether there is room. -/
theorem roomy_full {next : Array UInt8 → Inflate α} (hnext : ∀ out, Roomy 1 (next out)) :
    Roomy 1 (get >>= fun s => if s.room = some 0 then throw .full else next s.output) := by
  intro bits out room
  have hfree := hnext out bits out room
  change Follows _ _ _ (next out _) ((if some room = some 0 then throw .full else next out :
    Inflate α) _)
  by_cases hzero : room = 0
  · rw [if_pos (congrArg some hzero)]
    have hstop := @Follows.stop _ _ _ _ _ _ hfree [] ⟨bits, out, some room⟩ room _
      (List.append_nil _).symm (.inr ⟨hzero, Nat.one_pos⟩) (by simp)
    rwa [List.length_nil, Nat.zero_add] at hstop
  · rw [if_neg fun h => hzero (Option.some.inj h)]
    exact hfree

theorem roomy_emit (b : UInt8) : Roomy 1 (emit b) := by
  intro bits out room
  have hpush : (out.push b).toList = out.toList ++ [b] := Array.toList_push
  cases room with
  | zero => exact .okStopped le_rfl hpush Nat.one_pos (List.append_nil _).symm
  | succ room =>
    exact @Follows.ok _ 1 _ _ _ bits _ [b] le_rfl hpush (Nat.succ_le_succ (Nat.zero_le room))

/-! ### Bits -/

theorem roomy_bit : Roomy 0 bit := by
  intro bits out room
  cases bits with
  | nil => exact follows_error 0 .starved [] out room
  | cons b bits => exact follows_ok b bits out room

theorem roomy_number (width : Nat) : Roomy 0 (number width) := by
  induction width with
  | zero => exact roomy_pure 0
  | succ width ih =>
    apply roomy_bit.bind
    intro b
    exact ih.map fun n => b.toNat + 2 * n

theorem roomy_field (width : Nat) : Roomy 0 (field width) := by
  apply roomy_get
  · intro s room
    rfl
  · intro s
    split_ifs
    · exact roomy_throw 0 _
    · exact roomy_number width

theorem roomy_align : Roomy 0 align := fun _ out room => follows_ok () _ out room

/-! ### Symbols -/

theorem roomy_symbolFrom (index : Nat) (code : Code) : Roomy 0 (symbolFrom index code) := by
  induction code generalizing index with
  | nil => exact roomy_throw 0 _
  | cons words rest ih =>
    apply roomy_bit.bind
    intro b
    simp only
    cases words[2 * index + b.toNat]? with
    | some found => exact roomy_pure found
    | none => exact ih _

theorem roomy_symbol (code : Code) : Roomy 0 (symbol code) := by
  unfold symbol
  split_ifs
  · exact roomy_bit.bind fun _ => roomy_throw 0 .corrupt
  · exact roomy_symbolFrom 0 code

theorem roomy_tabled (table : List (Nat × Nat)) (index : Nat) : Roomy 0 (tabled table index) := by
  unfold tabled
  cases table[index]? with
  | none => exact roomy_throw 0 _
  | some entry => exact (roomy_field entry.2).map fun n => entry.1 + n

theorem roomy_copyBack (distance length : Nat) : Roomy 0 (copyBack distance length) := by
  induction length with
  | zero => exact roomy_pure ()
  | succ length ih =>
    have hrest (out : Array UInt8) : Roomy 1 (if out.size < distance then throw .corrupt
        else emit (out[out.size - distance]?.getD 0) >>= fun _ => copyBack distance length) := by
      split_ifs
      · exact roomy_throw 1 .corrupt
      · exact (roomy_emit _).seq fun _ => ih
    exact (roomy_full hrest).mono (Nat.zero_le 1)

theorem roomy_symbols (literals distances : Code) (fuel : Nat) :
    Roomy 0 (symbols literals distances fuel) := by
  induction fuel with
  | zero => exact roomy_throw 0 .starved
  | succ fuel ih =>
    apply (roomy_symbol literals).bind
    intro s
    split_ifs
    · exact ((roomy_emit _).seq fun _ => ih).mono (Nat.zero_le 1)
    · exact roomy_pure ()
    · apply (roomy_tabled lengthTable _).bind
      intro length
      apply (roomy_symbol distances).bind
      intro d
      apply (roomy_tabled distanceTable d).bind
      intro distance
      exact (roomy_copyBack distance length).bind fun _ => ih

/-! ### Blocks -/

theorem roomy_orCorrupt (a : Option α) : Roomy 0 (orCorrupt a) := by
  cases a with
  | none => exact roomy_throw 0 .corrupt
  | some a => exact roomy_pure a

theorem roomy_smallLengths (n : Nat) : Roomy 0 (smallLengths n) := by
  induction n with
  | zero => exact roomy_pure []
  | succ n ih =>
    apply (roomy_field 3).bind
    intro l
    exact ih.map fun ls => l :: ls

theorem roomy_codeLengths (code : Code) (total fuel : Nat) (lengths : List Nat) :
    Roomy 0 (codeLengths code total fuel lengths) := by
  induction fuel generalizing lengths with
  | zero => exact roomy_throw 0 .starved
  | succ fuel ih =>
    unfold codeLengths
    by_cases hdone : total ≤ lengths.length
    · rw [if_pos hdone]
      exact roomy_pure _
    rw [if_neg hdone]
    by_cases hempty : code.isEmpty
    case' pos =>
      rw [if_pos hempty]
      apply (roomy_bit.bind fun _ => roomy_pure 0).bind
    case' neg =>
      rw [if_neg hempty]
      apply (roomy_symbolFrom 0 code).bind
    all_goals
      intro s
      beta_reduce
      split_ifs
      · exact ih _
      split
      next value base extra _ =>
        apply (roomy_field extra).bind
        intro n
        cases value with
        | none => exact roomy_throw 0 .corrupt
        | some value =>
          simp only
          split_ifs
          · exact roomy_throw 0 .corrupt
          · exact ih _

theorem roomy_dynamicCodes : Roomy 0 dynamicCodes := by
  unfold dynamicCodes
  apply (roomy_field 14).bind
  intro header
  simp only
  split_ifs
  · exact roomy_throw 0 .corrupt
  · apply (roomy_smallLengths _).bind
    intro lengths
    apply (roomy_orCorrupt _).bind
    intro code
    apply (roomy_codeLengths code _ _ _).bind
    intro lengths
    split_ifs
    · exact roomy_throw 0 .corrupt
    · apply (roomy_orCorrupt _).bind
      intro literals
      exact (roomy_orCorrupt _).map fun distances => (literals, distances)

theorem roomy_storedBytes (n : Nat) : Roomy 0 (storedBytes n) := by
  induction n with
  | zero => exact roomy_pure ()
  | succ n ih =>
    have hrest : Roomy 1 (field 8 >>= fun b => emit (UInt8.ofNat b) >>= fun _ => storedBytes n) := by
      apply (roomy_field 8).bind
      intro b
      exact (roomy_emit _).seq fun _ => ih
    exact (roomy_full fun _ => hrest).mono (Nat.zero_le 1)

theorem roomy_storedBlock : Roomy 0 storedBlock := by
  apply roomy_align.bind
  intro _
  apply (roomy_field 32).bind
  intro header
  simp only
  split_ifs
  · exact roomy_throw 0 .corrupt
  · exact roomy_storedBytes _

theorem roomy_blocks (fuel : Nat) : Roomy 0 (blocks fuel) := by
  induction fuel with
  | zero => exact roomy_throw 0 .starved
  | succ fuel ih =>
    unfold blocks
    apply (roomy_field 3).bind
    intro header
    have hnext : Roomy 0 (if header % 2 = 1 then pure () else blocks fuel : Inflate Unit) := by
      split_ifs
      · exact roomy_pure ()
      · exact ih
    simp only
    split
    · exact roomy_storedBlock.bind fun _ => hnext
    · exact roomy_get (fun _ _ => rfl) fun s => (roomy_symbols _ _ _).bind fun _ => hnext
    · apply roomy_dynamicCodes.bind
      intro codes
      exact roomy_get (fun _ _ => rfl) fun s => (roomy_symbols codes.1 codes.2 _).bind fun _ => hnext
    · exact roomy_throw 0 .corrupt

theorem roomy_checksum : Roomy 0 checksum :=
  (roomy_field 32).map fun n => n % 256 * 16777216 + n / 256 % 256 * 65536 + n / 65536 % 256 * 256 +
    n / 16777216

theorem roomy_stream : Roomy 0 stream := by
  apply (roomy_field 16).bind
  intro header
  simp only
  split
  · exact roomy_throw 0 .corrupt
  split
  · apply (roomy_field 32).bind
    intro _
    exact roomy_throw 0 .corrupt
  · apply roomy_get (fun _ _ => rfl)
    intro s
    apply (roomy_blocks _).bind
    intro _
    apply roomy_align.bind
    intro _
    apply roomy_checksum.bind
    intro sum
    apply roomy_get (fun _ _ => rfl)
    intro s
    split_ifs
    · exact roomy_throw 0 .corrupt
    · exact roomy_pure ()

end Inflate

/-! ### Streams -/

/-- The content, provided that it has the size. -/
def ofSize (size : Nat) (content : Option Bytes) : Option Bytes :=
  content.bind fun bs => if bs.length = size then some bs else none

@[simp] theorem ofSize_none (size : Nat) : ofSize size none = none := rfl

theorem ofSize_some {size : Nat} {content : Bytes} (h : content.length = size) :
    ofSize size (some content) = some content :=
  if_pos h

theorem ofSize_of_ne {size : Nat} {content : Bytes} (h : content.length ≠ size) :
    ofSize size (some content) = none :=
  if_neg h

/-- With room for some bytes a stream gives the same as without a limit, or it is cut where the room
ends: because it has more content, or an error after just as much. -/
theorem inflate_some_cases (room : Nat) (input : Bytes) :
    (inflate (some room) input = inflate none input ∧ (inflate none input).content.length ≤ room) ∨
      inflate (some room) input = ⟨(inflate none input).content.take room, some .full⟩ ∧
        room ≤ (inflate none input).content.length ∧
        ((inflate none input).halted = none → room < (inflate none input).content.length) := by
  have hfollows := Inflate.roomy_stream (bitsOf input) #[] room
  change Inflate.Follows 0 [] room (Inflate.stream.run _) (Inflate.stream.run _) at hfollows
  unfold inflate
  generalize Inflate.stream.run ⟨bitsOf input, #[], none⟩ = free at hfollows ⊢
  generalize Inflate.stream.run ⟨bitsOf input, #[], some room⟩ = tied at hfollows ⊢
  cases hfollows
  case ok hout hroom =>
    exact .inl ⟨rfl, by simpa only [hout, List.nil_append] using hroom⟩
  case error hout hroom =>
    exact .inl ⟨rfl, by simpa only [hout, List.nil_append] using hroom⟩
  case okStopped hout hroom hstop =>
    exact .inr ⟨by simp only [hout, hstop, List.nil_append],
      by simpa only [hout, List.nil_append] using hroom.le,
      fun _ => by simpa only [hout, List.nil_append] using hroom⟩
  case errorStopped hout hroom hstop =>
    exact .inr ⟨by simp only [hout, hstop, List.nil_append],
      by simpa only [hout, List.nil_append] using hroom, fun h => by cases h⟩

section
variable {size : Nat} {input content : Bytes}

theorem inflateWhole?_eq_some :
    inflateWhole? input = some content ↔ inflate none input = ⟨content, none⟩ := by
  unfold inflateWhole?
  obtain ⟨found, halted⟩ := inflate none input
  cases halted <;> simp

/-- More content than is asked for is cut. -/
theorem inflateUpTo?_of_more (hsize : 0 < size) (h : size < (inflate none input).content.length) :
    inflateUpTo? size input = some ((inflate none input).content.take size) := by
  unfold inflateUpTo?
  rw [if_neg hsize.ne']
  rcases inflate_some_cases size input with ⟨-, hle⟩ | ⟨hcut, -⟩
  · omega
  · rw [hcut]
    rfl

/-- Content of less than the size that is asked for is given as it is. -/
theorem inflateUpTo?_of_less (h : (inflate none input).content.length < size) :
    inflateUpTo? size input = if (inflate none input).halted = some .corrupt then none
      else some (inflate none input).content := by
  unfold inflateUpTo?
  rw [if_neg (by omega : size ≠ 0)]
  rcases inflate_some_cases size input with ⟨hsame, -⟩ | ⟨-, hle, -⟩
  · rw [hsame]
  · omega

/-- Where there is as much content as is asked for, it is given or the stream is corrupt. -/
theorem inflateUpTo?_of_equal (h : (inflate none input).content.length = size) :
    inflateUpTo? size input = some (inflate none input).content ∨
      inflateUpTo? size input = none ∧ (inflate none input).halted = some .corrupt := by
  unfold inflateUpTo?
  have hgiven (r : Inflated) (hr : r = inflate none input) :
      (if r.halted = some .corrupt then none else some r.content) =
          some (inflate none input).content ∨
        (if r.halted = some .corrupt then none else some r.content) = none ∧
          (inflate none input).halted = some .corrupt := by
    subst hr
    split_ifs with hcorrupt
    · exact .inr ⟨rfl, hcorrupt⟩
    · exact .inl rfl
  split_ifs with hzero
  · exact hgiven _ rfl
  · rcases inflate_some_cases size input with ⟨hsame, -⟩ | ⟨hcut, -⟩
    · exact hgiven _ hsame
    · rw [hcut, ← h, List.take_length]
      exact .inl rfl

/-- A complete stream gives all of its content where that much is asked for. -/
theorem inflateUpTo?_of_whole (h : inflateWhole? input = some content) :
    inflateUpTo? content.length input = some content := by
  have hrun := inflateWhole?_eq_some.mp h
  rcases inflateUpTo?_of_equal (congrArg (·.content.length) hrun) with hgiven | ⟨-, hcorrupt⟩
  · rw [hgiven, hrun]
  · rw [hrun] at hcorrupt
    cases hcorrupt

end

end ElfScope.Zlib
