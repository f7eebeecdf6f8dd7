import Cityscape.Json.Codec

/-!
# `Record`: records as objects and as arrays

A record is described by its fields in the order in which they are declared. It is written as
an object with all its fields. It is read from an object, whose unknown members are skipped and
whose fields may occur once only, or from an array of the fields in order, whose last items may
be missing if they have a default.

Main statement: a record whose field names differ reads back what it writes, provided its
fields do (`Record.readsBack`).
-/

namespace Cityscape

/-- A field of a record. -/
structure Field (α : Type) where
  name : String
  codec : Codec α
  /-- The value if an object has no member of this name. -/
  unnamed : Option α
  /-- The value if an array ends before this field. -/
  unlisted : Option α

namespace Field

variable {α : Type}

/-- A field that must be present. -/
def required (name : String) (c : Codec α) : Field α := ⟨name, c, none, none⟩

/-- A field that may be null, and may be absent from an object. -/
def nullable (name : String) (c : Codec α) : Field (Option α) := ⟨name, c.option, some none, none⟩

/-- A field that has a default wherever it is absent. -/
def withDefault (name : String) (c : Codec α) (default : α) : Field α :=
  ⟨name, c, some default, some default⟩

end Field

/-- The fields of a record. Its values are tuples `β` that end in the unit; `σ` is the same
tuple while it is being read, each of its places filled or not. -/
inductive Record : Type → Type → Type 1 where
  | done : Record Unit Unit
  | field {α β σ : Type} (f : Field α) (rest : Record β σ) : Record (α × β) (Option α × σ)

namespace Record

/-- The names of the fields. -/
def names {β σ : Type} : Record β σ → List String
  | .done => []
  | .field f rest => f.name :: rest.names

/-- The members of the object that stands for a record. -/
def encodeMembers {β σ : Type} : Record β σ → β → List (String × Json)
  | .done, () => []
  | .field f rest, (a, b) => (f.name, f.codec.encode a) :: rest.encodeMembers b

/-! ## Reading an object -/

/-- No field read yet. -/
def vacant {β σ : Type} : Record β σ → σ
  | .done => ()
  | .field _ rest => (none, rest.vacant)

/-- All fields read. -/
def filled {β σ : Type} : Record β σ → β → σ
  | .done, () => ()
  | .field _ rest, (a, b) => (some a, rest.filled b)

/-- Reads one member into its field. A field may be read once only; a member that is no field
is skipped, whatever its value, as long as the text goes on. -/
def readMember {β σ : Type} : Record β σ → σ → String → Json → Except Refusal σ
  | .done, (), _, j => if j.isTorn then .error .unreadable else .ok ()
  | .field f rest, (slot, slots), name, j =>
    if f.name = name then
      match slot with
      | some _ => .error .mismatch
      | none => (f.codec.decode j).map fun a => (some a, slots)
    else (rest.readMember slots name j).map fun slots => (slot, slots)

/-- Reads the members of an object in order. -/
def readMembers {β σ : Type} (r : Record β σ) : σ → List (String × Json) → Except Refusal σ
  | slots, [] => .ok slots
  | slots, (name, j) :: ms => do
    let slots ← r.readMember slots name j
    r.readMembers slots ms

/-- The record of the fields read, defaults in the place of absent ones. -/
def complete {β σ : Type} : Record β σ → σ → Except Refusal β
  | .done, () => .ok ()
  | .field f rest, (slot, slots) =>
    match slot.or f.unnamed with
    | none => .error .mismatch
    | some a => (rest.complete slots).map fun b => (a, b)

/-! ## Reading an array -/

/-- Reads the fields in order. Nothing may follow the last one. -/
def readItems {β σ : Type} : Record β σ → List Json → Except Refusal β
  | .done, [] => .ok ()
  | .done, _ :: _ => .error .unreadable
  | .field f rest, [] =>
    match f.unlisted with
    | none => .error .mismatch
    | some a => (rest.readItems []).map fun b => (a, b)
  | .field f rest, j :: js => do
    let a ← f.codec.decode j
    let b ← rest.readItems js
    return (a, b)

/-- The codec of a record. -/
def codec {β σ : Type} (r : Record β σ) : Codec β where
  encode b := .obj (r.encodeMembers b)
  decode
    | .obj ms => do
      let slots ← r.readMembers r.vacant ms
      r.complete slots
    | .arr js => r.readItems js
    | j => .error j.refusal

/-! ## What is written is read back -/

/-- Every field of `b` is read back by its codec. -/
def FieldsReadBack {β σ : Type} : Record β σ → β → Prop
  | .done, () => True
  | .field f rest, (a, b) => f.codec.ReadsBack a ∧ rest.FieldsReadBack b

theorem map_fst_encodeMembers {β σ : Type} (r : Record β σ) (b : β) :
    (r.encodeMembers b).map Prod.fst = r.names := by
  induction r with
  | done => rfl
  | field f rest ih => obtain ⟨a, b⟩ := b; simp [encodeMembers, names, ih]

/-- Members of other names do not touch the first field. -/
theorem readMembers_field {α β σ : Type} {f : Field α} {rest : Record β σ} {slot : Option α}
    {slots : σ} {ms : List (String × Json)} (h : f.name ∉ ms.map Prod.fst) :
    (Record.field f rest).readMembers (slot, slots) ms =
      (rest.readMembers slots ms).map fun slots => (slot, slots) := by
  induction ms generalizing slots with
  | nil => rfl
  | cons m ms ih =>
    obtain ⟨name, j⟩ := m
    simp only [List.map_cons, List.mem_cons, not_or] at h
    simp only [readMembers, readMember, if_neg h.1]
    cases rest.readMember slots name j with
    | error e => rfl
    | ok slots' => exact ih h.2

theorem readMembers_encodeMembers {β σ : Type} {r : Record β σ} {b : β} (hn : r.names.Nodup)
    (hb : r.FieldsReadBack b) : r.readMembers r.vacant (r.encodeMembers b) = .ok (r.filled b) := by
  induction r with
  | done => rfl
  | field f rest ih =>
    obtain ⟨a, b⟩ := b
    obtain ⟨ha, hb⟩ := hb
    obtain ⟨hf, hn⟩ := List.nodup_cons.1 hn
    have hd : f.codec.decode (f.codec.encode a) = .ok a := ha
    have hread : (Record.field f rest).readMember (none, rest.vacant) f.name (f.codec.encode a)
        = .ok (some a, rest.vacant) := by
      simp [readMember, hd, Except.map]
    simp only [vacant, encodeMembers, readMembers, hread]
    change (Record.field f rest).readMembers (some a, rest.vacant) (rest.encodeMembers b) = _
    rw [readMembers_field (by rw [map_fst_encodeMembers]; exact hf), ih hn hb]
    rfl

theorem complete_filled {β σ : Type} (r : Record β σ) (b : β) : r.complete (r.filled b) = .ok b := by
  induction r with
  | done => rfl
  | field f rest ih => obtain ⟨a, b⟩ := b; simp [filled, complete, ih, Except.map]

/-- A record reads back what it writes. -/
theorem readsBack {β σ : Type} {r : Record β σ} {b : β} (hn : r.names.Nodup)
    (hb : r.FieldsReadBack b) : r.codec.ReadsBack b := by
  simp only [Codec.ReadsBack, codec, readMembers_encodeMembers hn hb]
  exact complete_filled r b

end Record

end Cityscape
