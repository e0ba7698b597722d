import Mathlib
import ElfScope.Bytes.Leb128

/-! # Written bytes read back

A decoder reads a written value when it gives the value and leaves what follows, whatever that is.
Such readings compose as the decoders do, so the layout of a record is read field by field.
-/
namespace ElfScope

namespace Decoder
variable {α β γ : Type}

/-- The decoder reads the bytes as the value, before any other bytes. -/
def Reads (d : Decoder α) (bs : Bytes) (a : α) : Prop :=
  ∀ rest, d.run (bs ++ rest) = .ok (a, rest)

theorem reads_pure (a : α) : Reads (pure a) [] a := fun _ => rfl

theorem Reads.bind {d : Decoder α} {f : α → Decoder β} {bs bs' : Bytes} {a : α} {b : β}
    (hd : Reads d bs a) (hf : Reads (f a) bs' b) : Reads (d >>= f) (bs ++ bs') b := by
  intro rest
  rw [StateT.run_bind, List.append_assoc, hd]
  exact hf rest

/-- Nothing more is read. -/
theorem Reads.last {d : Decoder α} {f : α → Decoder β} {bs : Bytes} {a : α} {b : β}
    (hd : Reads d bs a) (hf : Reads (f a) [] b) : Reads (d >>= f) bs b := by
  have h := hd.bind hf
  rw [List.append_nil] at h
  exact h

theorem Reads.map {d : Decoder α} {bs : Bytes} {a : α} (hd : Reads d bs a) (f : α → β) :
    Reads (d >>= fun a => pure (f a)) bs (f a) :=
  hd.last (reads_pure (f a))

theorem reads_take (bs : Bytes) : Reads (take bs.length) bs bs := take_append bs

theorem reads_number_mod (order : ByteOrder) (width n : Nat) :
    Reads (number order width) (Bytes.ofNat order width n) (n % Bytes.limit width) := by
  intro rest
  have htake := take_append (Bytes.ofNat order width n) rest
  rw [Bytes.length_ofNat] at htake
  unfold number
  rw [StateT.run_bind]
  change (take width (Bytes.ofNat order width n ++ rest) >>= _) = _
  rw [htake]
  change Except.ok (Bytes.value order (Bytes.ofNat order width n), rest) = _
  rw [Bytes.value_ofNat]

theorem reads_number (order : ByteOrder) {width n : Nat} (h : n < Bytes.limit width) :
    Reads (number order width) (Bytes.ofNat order width n) n := by
  have hread := reads_number_mod order width n
  rw [Nat.mod_eq_of_lt h] at hread
  exact hread

theorem reads_nulTerminated {bs : Bytes} (h : (0 : UInt8) ∉ bs) :
    Reads nulTerminated (bs ++ [0]) bs := by
  intro rest
  have hnul : Bytes.beforeNul? (bs ++ [0] ++ rest) = some bs := by
    rw [List.append_assoc]
    exact Bytes.beforeNul?_append bs rest h
  have hdrop : (bs ++ [0] ++ rest).drop (bs.length + 1) = rest := by
    rw [List.drop_append_of_le_length (by simp), List.drop_of_length_le (by simp),
      List.nil_append]
  change nulTerminated (bs ++ [0] ++ rest) = _
  unfold nulTerminated
  rw [hnul]
  simp only [hdrop]

theorem reads_unsigned (n : Nat) : Reads Leb128.unsigned (Leb128.encode n) n := by
  intro rest
  change Leb128.unsigned (Leb128.encode n ++ rest) = _
  rw [Leb128.unsigned, Leb128.unsigned?_encode]

theorem reads_signed (n : Int) : Reads Leb128.signed (Leb128.encodeSigned n) n := by
  intro rest
  change Leb128.signed (Leb128.encodeSigned n ++ rest) = _
  rw [Leb128.signed, Leb128.signed?_encodeSigned]

theorem reads_go_stop {step : Decoder (Option α)} {bs : Bytes} (h : Reads step bs none)
    (fuel : Nat) : Reads (repeatUntilNone.go step (fuel + 1)) bs [] := by
  intro rest
  unfold repeatUntilNone.go
  rw [StateT.run_bind, h]
  rfl

theorem reads_go_item {step : Decoder (Option α)} {bs bs' : Bytes} {a : α} {as : List α} {fuel : Nat}
    (h : Reads step bs (some a)) (hrest : Reads (repeatUntilNone.go step fuel) bs' as) :
    Reads (repeatUntilNone.go step (fuel + 1)) (bs ++ bs') (a :: as) := by
  intro rest
  unfold repeatUntilNone.go
  rw [StateT.run_bind, List.append_assoc, h]
  exact hrest.map (a :: ·) rest

theorem length_le_flatMap {encode : β → Bytes} {items : List β} (h : ∀ b ∈ items, encode b ≠ []) :
    items.length ≤ (items.flatMap encode).length := by
  induction items with
  | nil => simp
  | cons b items ih =>
    obtain ⟨hb, hitems⟩ := List.forall_mem_cons.mp h
    have hpos := List.length_pos_iff.mpr hb
    have hle := ih hitems
    rw [List.flatMap_cons, List.length_append, List.length_cons]
    omega

/-- The items of a list that a stop follows are read one by one. -/
theorem reads_repeatUntilNone {step : Decoder (Option α)} {stop : Bytes} {encode : β → Bytes}
    {make : β → α} {items : List β} (hstop : Reads step stop none) (hend : stop ≠ [])
    (hitem : ∀ b ∈ items, Reads step (encode b) (some (make b)) ∧ encode b ≠ []) :
    Reads (repeatUntilNone step) (items.flatMap encode ++ stop) (items.map make) := by
  have hgo (items : List β) (hitem : ∀ b ∈ items, Reads step (encode b) (some (make b)))
      (fuel : Nat) (hfuel : items.length < fuel) :
      Reads (repeatUntilNone.go step fuel) (items.flatMap encode ++ stop) (items.map make) := by
    induction items generalizing fuel with
    | nil =>
      obtain ⟨fuel, rfl⟩ : ∃ k, fuel = k + 1 := ⟨fuel - 1, by omega⟩
      exact reads_go_stop hstop fuel
    | cons b items ih =>
      rw [List.length_cons] at hfuel
      obtain ⟨fuel, rfl⟩ : ∃ k, fuel = k + 1 := ⟨fuel - 1, by omega⟩
      obtain ⟨hb, hitems⟩ := List.forall_mem_cons.mp hitem
      rw [List.flatMap_cons, List.append_assoc]
      exact reads_go_item hb (ih hitems fuel (by omega))
  intro rest
  have hlength := length_le_flatMap fun b hb => (hitem b hb).2
  have hpos := List.length_pos_iff.mpr hend
  refine hgo items (fun b hb => (hitem b hb).1) _ ?_ rest
  rw [List.length_append, List.length_append]
  omega

/-! ### Any bytes of a size -/

theorem Reads.exists_bind {d : Decoder α} {f : α → Decoder β} {bs bs' : Bytes} {a : α}
    {Q : β → Prop} (hd : Reads d bs a) (hf : ∃ b, Reads (f a) bs' b ∧ Q b) :
    ∃ b, Reads (d >>= f) (bs ++ bs') b ∧ Q b := by
  obtain ⟨b, hb, hq⟩ := hf
  exact ⟨b, hd.bind hb, hq⟩

/-- The decoder reads any bytes of a size, as a value of some kind. -/
def ReadsAny (d : Decoder α) (size : Nat) (Q : α → Prop) : Prop :=
  ∀ bs : Bytes, bs.length = size → ∃ a, Reads d bs a ∧ Q a

theorem readsAny_pure {a : α} {Q : α → Prop} (h : Q a) : ReadsAny (pure a) 0 Q := by
  intro bs hbs
  cases List.eq_nil_of_length_eq_zero hbs
  exact ⟨a, reads_pure a, h⟩

theorem ReadsAny.bind {d : Decoder α} {f : α → Decoder β} {size size' : Nat} {P : α → Prop}
    {Q : β → Prop} (hd : ReadsAny d size P) (hf : ∀ a, ReadsAny (f a) size' Q) :
    ReadsAny (d >>= f) (size + size') Q := by
  intro bs hbs
  obtain ⟨a, ha, -⟩ := hd (bs.take size) (by rw [List.length_take]; omega)
  have hrest := ha.exists_bind (hf a (bs.drop size) (by rw [List.length_drop]; omega))
  rw [List.take_append_drop] at hrest
  exact hrest

theorem readsAny_number (order : ByteOrder) (width : Nat) :
    ReadsAny (number order width) width fun _ => True := by
  rintro bs rfl
  exact ⟨_, (reads_take bs).map _, trivial⟩

end Decoder

/-! ### Pieces of a section -/

namespace Bytes
variable {bs piece piece' : Bytes} {offset : Nat}

/-- The bytes have a piece at an offset. -/
def Holds (bs : Bytes) (offset : Nat) (piece : Bytes) : Prop := piece <+: bs.drop offset

theorem holds_append (front piece rest : Bytes) :
    Holds (front ++ (piece ++ rest)) front.length piece := by
  unfold Holds
  rw [List.drop_left]
  exact List.prefix_append piece rest

theorem Holds.left (h : Holds bs offset (piece ++ piece')) : Holds bs offset piece :=
  (List.prefix_append piece piece').trans h

theorem Holds.right (h : Holds bs offset (piece ++ piece')) :
    Holds bs (offset + piece.length) piece' := by
  obtain ⟨rest, hrest⟩ := h
  refine ⟨rest, ?_⟩
  rw [← List.drop_drop, ← hrest, List.append_assoc, List.drop_left]

theorem Holds.le_length (h : Holds bs offset piece) (hpiece : piece ≠ []) :
    offset + piece.length ≤ bs.length := by
  have hle := h.length_le
  have hpos := List.length_pos_iff.mpr hpiece
  rw [List.length_drop] at hle
  omega

theorem Holds.eq_append (h : Holds bs offset piece) :
    bs.drop offset = piece ++ bs.drop (offset + piece.length) := by
  obtain ⟨rest, hrest⟩ := h
  rw [← List.drop_drop, ← hrest, List.drop_left]

/-- A piece of a piece. -/
theorem Holds.within {inner : Nat} (h : Holds bs offset piece) (h' : Holds piece inner piece') :
    Holds bs (offset + inner) piece' := by
  obtain ⟨rest, hrest⟩ := h
  unfold Holds
  rw [← List.drop_drop, ← hrest, List.drop_append]
  exact h'.trans (List.prefix_append _ _)

/-- The piece at the front of what is left. -/
theorem holds_of_drop {rest : Bytes} (h : bs.drop offset = piece ++ rest) :
    Holds bs offset piece ∧ bs.drop (offset + piece.length) = rest := by
  constructor
  · exact ⟨rest, h.symm⟩
  · rw [← List.drop_drop, h, List.drop_left]

theorem Holds.slice (h : Holds bs offset piece) : bs.slice offset piece.length = piece := by
  unfold Bytes.slice
  rw [h.eq_append, List.take_left]

end Bytes

theorem Decoder.Reads.runAt {α : Type} {d : Decoder α} {bs piece : Bytes} {a : α} {offset : Nat}
    (hd : d.Reads piece a) (h : bs.Holds offset piece) :
    d.runAt bs offset = .ok (a, bs.drop (offset + piece.length)) := by
  unfold Decoder.runAt
  rw [h.eq_append]
  exact hd _

theorem Decoder.Reads.valueAt {α : Type} {d : Decoder α} {bs piece : Bytes} {a : α} {offset : Nat}
    (hd : d.Reads piece a) (h : bs.Holds offset piece) : d.valueAt bs offset = .ok a := by
  unfold Decoder.valueAt
  rw [hd.runAt h]
  rfl

end ElfScope
