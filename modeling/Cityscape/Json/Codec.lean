import Cityscape.Json.Basic

/-!
# `Codec`: values and the JSON that stands for them

A codec writes a value as JSON and reads it back. Codecs are put together from those of
numbers, texts, options, lists, sets, maps and choices; records are in `Json.Record`.

Main statement: what a codec built from these writes, it reads back (`ReadsBack`), provided
the parts do.
-/

namespace Cityscape

/-- Why a JSON value is refused. -/
inductive Refusal where
  /-- It is JSON, but not of the form that is asked for. -/
  | mismatch
  /-- The text stops being JSON before the value is understood. -/
  | unreadable
deriving DecidableEq, Repr

/-- The refusal of a value that has the wrong form altogether. -/
def Json.refusal : Json → Refusal
  | .unfit => .unreadable
  | .torn => .unreadable
  | _ => .mismatch

/-- A way to write values as JSON and to read them. -/
structure Codec (α : Type) where
  encode : α → Json
  decode : Json → Except Refusal α

namespace Codec

variable {α β : Type}

/-- The codec reads what it writes for `a`. -/
def ReadsBack (c : Codec α) (a : α) : Prop := c.decode (c.encode a) = .ok a

/-- The codec of a type that is written as another one. -/
def iso (c : Codec α) (f : α → β) (g : β → α) : Codec β where
  encode b := c.encode (g b)
  decode j := (c.decode j).map f

theorem ReadsBack.iso {c : Codec α} {f : α → β} {g : β → α} {b : β}
    (h : c.ReadsBack (g b)) (hfg : f (g b) = b) : (c.iso f g).ReadsBack b := by
  simp only [ReadsBack, Codec.iso] at h ⊢
  rw [h]
  simp [Except.map, hfg]

/-! ## Scalars -/

/-- Texts. -/
def text : Codec String where
  encode := .str
  decode
    | .str s => .ok s
    | j => .error j.refusal

/-- Truth values. -/
def bool : Codec Bool where
  encode := .bool
  decode
    | .bool b => .ok b
    | j => .error j.refusal

/-- Integers from `lo` up to `hi`. -/
def intBetween (lo hi : Int) : Codec Int where
  encode := .int
  decode
    | .int n => if lo ≤ n ∧ n ≤ hi then .ok n else .error .mismatch
    | j => .error j.refusal

/-- Unsigned integers of 32 bits. -/
def uint32 : Codec UInt32 :=
  (intBetween 0 0xFFFFFFFF).iso (fun n => .ofNat n.toNat) (fun n => n.toNat)

/-- Unsigned integers of 64 bits. -/
def uint64 : Codec UInt64 :=
  (intBetween 0 0xFFFFFFFFFFFFFFFF).iso (fun n => .ofNat n.toNat) (fun n => n.toNat)

/-- Signed integers of 64 bits. -/
def int64 : Codec Int64 :=
  (intBetween (-0x8000000000000000) 0x7FFFFFFFFFFFFFFF).iso Int64.ofInt Int64.toInt

/-- Doubles; an integer stands for the nearest one. -/
def double : Codec Binary64 where
  encode := .float
  decode
    | .float x => .ok x
    | .int n => .ok (.ofInt n)
    | j => .error j.refusal

theorem text_readsBack (s : String) : text.ReadsBack s := rfl

theorem bool_readsBack (b : Bool) : bool.ReadsBack b := rfl

theorem double_readsBack (x : Binary64) : double.ReadsBack x := rfl

theorem intBetween_readsBack {lo hi n : Int} (h : lo ≤ n ∧ n ≤ hi) :
    (intBetween lo hi).ReadsBack n := by
  simp [ReadsBack, intBetween, h]

theorem uint32_readsBack (n : UInt32) : uint32.ReadsBack n :=
  (intBetween_readsBack ⟨by omega, by have := n.toNat_lt; omega⟩).iso (by simp)

theorem uint64_readsBack (n : UInt64) : uint64.ReadsBack n :=
  (intBetween_readsBack ⟨by omega, by have := n.toNat_lt; omega⟩).iso (by simp)

theorem int64_readsBack (n : Int64) : int64.ReadsBack n :=
  (intBetween_readsBack ⟨n.le_toInt, by have := n.toInt_lt; omega⟩).iso
    (Int64.ofInt_toInt n)

/-! ## Choices -/

/-- The value that a name stands for. -/
def chosen (names : List (String × α)) (name : String) : Except Refusal α :=
  match names.find? fun p => p.1 = name with
  | some p => .ok p.2
  | none => .error .mismatch

/-- A choice among values without content, written as a name. The object with that one name
and null is read as well; any other value cannot begin a choice. -/
def choice (encode : α → String) (names : List (String × α)) : Codec α where
  encode a := .str (encode a)
  decode
    | .str s => chosen names s
    | .obj ((name, j) :: rest) =>
      match name, j with
      | "", .torn => .error .unreadable
      | name, j => do
        let a ← chosen names name
        match j with
        | .null => if rest.isEmpty then .ok a else .error .unreadable
        | j => .error j.refusal
    | _ => .error .unreadable

theorem choice_readsBack {encode : α → String} {names : List (String × α)} {a : α}
    (h : chosen names (encode a) = .ok a) : (choice encode names).ReadsBack a := h

/-! ## Options, lists, sets and maps -/

/-- A value or null. -/
def option (c : Codec α) : Codec (Option α) where
  encode
    | none => .null
    | some a => c.encode a
  decode
    | .null => .ok none
    | j => (c.decode j).map some

/-- Reads one item after another. -/
def decodeAll (c : Codec α) : List Json → Except Refusal (List α)
  | [] => .ok []
  | j :: js => do
    let a ← c.decode j
    let as ← decodeAll c js
    return a :: as

/-- Lists. -/
def list (c : Codec α) : Codec (List α) where
  encode as := .arr (as.map c.encode)
  decode
    | .arr js => decodeAll c js
    | j => .error j.refusal

/-- Reads the values of one member after another. -/
def decodeMembers (c : Codec α) : List (String × Json) → Except Refusal (List (String × α))
  | [] => .ok []
  | (k, j) :: ms => do
    let a ← c.decode j
    let as ← decodeMembers c ms
    return (k, a) :: as

/-- Sets, written as ascending lists; repeated elements are read once. -/
def set [Ord α] [Std.TransOrd α] [Std.LawfulEqOrd α] (c : Codec α) : Codec (SortedSet α) :=
  (list c).iso (fun as => Sorted.ofList as) (fun s => s.toList)

/-- Maps from texts; of repeated names the last one is read. -/
def map (c : Codec α) : Codec (SortedMap String α) where
  encode m := .obj (m.toList.map fun p => (p.1, c.encode p.2))
  decode
    | .obj ms => (decodeMembers c ms).map fun ps => Sorted.ofList ps
    | j => .error j.refusal

theorem ReadsBack.option {c : Codec α} {o : Option α}
    (h : ∀ a, o = some a → c.ReadsBack a ∧ c.encode a ≠ .null) : c.option.ReadsBack o := by
  cases o with
  | none => rfl
  | some a =>
    obtain ⟨ha, hn⟩ := h a rfl
    simp only [ReadsBack] at ha
    simp only [ReadsBack, Codec.option]
    rw [ha]
    rfl

theorem decodeAll_map {c : Codec α} {as : List α} (h : ∀ a ∈ as, c.ReadsBack a) :
    decodeAll c (as.map c.encode) = .ok as := by
  induction as with
  | nil => rfl
  | cons a as ih =>
    have ha : c.decode (c.encode a) = .ok a := h a List.mem_cons_self
    have has := ih fun b hb => h b (List.mem_cons_of_mem a hb)
    simp [decodeAll, ha, has, bind, Except.bind, pure, Except.pure]

theorem ReadsBack.list {c : Codec α} {as : List α} (h : ∀ a ∈ as, c.ReadsBack a) :
    c.list.ReadsBack as :=
  decodeAll_map h

end Codec

end Cityscape
