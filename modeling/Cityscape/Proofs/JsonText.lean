import Cityscape.Json.Parser
import Cityscape.Json.Printer
import Mathlib.Data.List.DropRight
import Mathlib.Tactic.IntervalCases

/-!
# `JsonText`: what is printed is read back

The text of a JSON value is read as that value (`Json.Printable.ofText_render`), provided the
integers in it fit 64 bits, its doubles are read back from their own texts, and it is not nested
too deeply. What stands behind a number decides where the number ends, so everything is shown for
texts that go on behind the value, with a comma or a closing bracket.
-/

namespace Cityscape.Json

/-- The text ends, or it goes on with what may stand behind a value within another one. -/
def Ends (rest : List Char) : Prop := ∀ c ∈ rest.head?, c = ',' ∨ c = ']' ∨ c = '}'

theorem Ends.nil : Ends [] := nofun

theorem Ends.cons {c : Char} (h : c = ',' ∨ c = ']' ∨ c = '}') (cs : List Char) :
    Ends (c :: cs) := by
  intro d hd
  obtain rfl := Option.some.inj hd
  exact h

variable {cs cs' rest : List Char} {negative : Bool} {j : Json}

theorem Ends.skipGap (h : Ends rest) : skipGap rest = rest := by
  cases rest with
  | nil => rfl
  | cons c cs => rcases h c rfl with rfl | rfl | rfl <;> rfl

theorem skipGap_cons {c : Char} (h : isGap c = false) (cs : List Char) :
    Json.skipGap (c :: cs) = c :: cs := by
  unfold Json.skipGap
  rw [List.dropWhile_cons, h]
  rfl

/-! ## Numbers -/

section Numbers

theorem digits_of_ends (h : Ends rest) : digits rest = ([], rest) := by
  cases rest with
  | nil => rfl
  | cons c cs => rcases h c rfl with rfl | rfl | rfl <;> rfl

/-- Digits end where the text ends in which they stand. -/
theorem digits_append (h : Ends rest) (cs : List Char) :
    digits (cs ++ rest) = ((digits cs).1, (digits cs).2 ++ rest) := by
  induction cs with
  | nil => exact digits_of_ends h
  | cons c cs ih =>
    show digits (c :: (cs ++ rest)) = _
    unfold digits
    cases digit? c with
    | none => rfl
    | some d =>
      rw [ih]

theorem fractionPart_of_ne {c : Char} (h : c ≠ '.') :
    fractionPart (c :: cs) = some ([], c :: cs) := by
  unfold fractionPart
  split
  · rename_i heq
    exact absurd (List.cons.inj heq).1 h
  · rfl

theorem fractionPart_point (cs : List Char) :
    fractionPart ('.' :: cs) = match digits cs with
      | ([], _) => none
      | found => some found := rfl

theorem fractionPart_append (h : Ends rest) {found : List Nat}
    (hcs : fractionPart cs = some (found, cs')) :
    fractionPart (cs ++ rest) = some (found, cs' ++ rest) := by
  cases cs with
  | nil =>
    cases hcs
    cases rest with
    | nil => rfl
    | cons c cs => rcases h c rfl with rfl | rfl | rfl <;> rfl
  | cons c cs =>
    by_cases hc : c = '.'
    · subst hc
      rw [fractionPart_point] at hcs
      rw [List.cons_append, fractionPart_point, digits_append h]
      rcases hd : digits cs with ⟨_ | ⟨d, ds⟩, cs'⟩
      · rw [hd] at hcs
        cases hcs
      · rw [hd] at hcs
        cases hcs
        rfl
    · rw [fractionPart_of_ne hc] at hcs
      cases hcs
      exact fractionPart_of_ne hc

/-- The sign before an exponent, and what follows it. -/
def exponentSign : List Char → Bool × List Char
  | '-' :: cs => (true, cs)
  | '+' :: cs => (false, cs)
  | cs => (false, cs)

theorem exponentSign_of_ne {c : Char} (hm : c ≠ '-') (hp : c ≠ '+') :
    exponentSign (c :: cs) = (false, c :: cs) := by
  unfold exponentSign
  split
  · rename_i heq
    exact absurd (List.cons.inj heq).1 hm
  · rename_i heq
    exact absurd (List.cons.inj heq).1 hp
  · rfl

theorem exponentSign_append (h : Ends rest) (cs : List Char) :
    exponentSign (cs ++ rest) = ((exponentSign cs).1, (exponentSign cs).2 ++ rest) := by
  cases cs with
  | nil =>
    cases rest with
    | nil => rfl
    | cons c cs => rcases h c rfl with rfl | rfl | rfl <;> rfl
  | cons c cs =>
    by_cases hm : c = '-'
    · subst hm
      rfl
    · by_cases hp : c = '+'
      · subst hp
        rfl
      · rw [List.cons_append, exponentSign_of_ne hm hp, exponentSign_of_ne hm hp]
        rfl

theorem exponentPart_cons {c : Char} (h : c = 'e' ∨ c = 'E') (cs : List Char) :
    exponentPart (c :: cs) = match digits (exponentSign cs).2 with
      | ([], _) => none
      | (ds, rest) =>
        let n : Int := ofDigits ds
        some (some (if (exponentSign cs).1 then -n else n), rest) := if_pos h

theorem exponentPart_of_ne {c : Char} (h : ¬(c = 'e' ∨ c = 'E')) (cs : List Char) :
    exponentPart (c :: cs) = some (none, c :: cs) := if_neg h

theorem exponentPart_append (h : Ends rest) {power : Option Int}
    (hcs : exponentPart cs = some (power, cs')) :
    exponentPart (cs ++ rest) = some (power, cs' ++ rest) := by
  cases cs with
  | nil =>
    cases hcs
    cases rest with
    | nil => rfl
    | cons c cs => rcases h c rfl with rfl | rfl | rfl <;> rfl
  | cons c cs =>
    by_cases hc : c = 'e' ∨ c = 'E'
    · rw [exponentPart_cons hc] at hcs
      rw [List.cons_append, exponentPart_cons hc, exponentSign_append h, digits_append h]
      rcases hd : digits (exponentSign cs).2 with ⟨_ | ⟨d, ds⟩, cs'⟩
      · rw [hd] at hcs
        cases hcs
      · rw [hd] at hcs
        cases hcs
        rfl
    · rw [exponentPart_of_ne hc] at hcs
      cases hcs
      exact exponentPart_of_ne hc (cs ++ rest)

/-- A number whose digits have no superfluous zero before them. -/
theorem number_of_digits {d : Nat} {ds : List Nat} (hd : digits cs = (d :: ds, cs'))
    (hz : d = 0 → ds = []) :
    number negative cs = match fractionPart cs' with
      | none => (.torn, none)
      | some (fraction, rest) =>
        match exponentPart rest with
        | none => (.torn, none)
        | some (power, rest) => (numberValue negative (d :: ds) fraction power, some rest) := by
  unfold number
  rw [hd]
  cases d with
  | zero =>
    obtain rfl := hz rfl
    rfl
  | succ d => rfl

/-- A number ends where the text ends in which it stands. -/
theorem number_append (h : Ends rest) (hcs : number negative cs = (j, some cs')) :
    number negative (cs ++ rest) = (j, some (cs' ++ rest)) := by
  have hall : digits (cs ++ rest) = ((digits cs).1, (digits cs).2 ++ rest) := digits_append h cs
  rcases hd : digits cs with ⟨_ | ⟨d, ds⟩, cs₁⟩
  · unfold number at hcs
    rw [hd] at hcs
    cases hcs
  rw [hd] at hall
  by_cases hz : d = 0 → ds = []
  · rw [number_of_digits hd hz] at hcs
    rw [number_of_digits hall hz]
    rcases hf : fractionPart cs₁ with _ | ⟨fraction, cs₂⟩
    · rw [hf] at hcs
      cases hcs
    · rw [hf] at hcs
      rw [fractionPart_append h hf]
      rcases he : exponentPart cs₂ with _ | ⟨power, cs₃⟩
      · simp only [he] at hcs
        cases hcs
      · simp only [he] at hcs
        simp only [exponentPart_append h he]
        cases hcs
        rfl
  · obtain ⟨rfl, hds⟩ := Classical.not_imp.1 hz
    obtain ⟨e, es, rfl⟩ := List.exists_cons_of_ne_nil hds
    unfold number at hcs
    rw [hd] at hcs
    cases hcs

theorem digit?_digitChar {d : Nat} (h : d < 10) : digit? (Nat.digitChar d) = some d := by
  have hall : ∀ d < 10, digit? (Nat.digitChar d) = some d := by decide
  exact hall d h

theorem ofDigits_append (ds : List Nat) (d : Nat) :
    ofDigits (ds ++ [d]) = ofDigits ds * 10 + d := by
  unfold ofDigits
  rw [List.foldl_append]
  rfl

/-- The digits that a natural number is written with: there is a leading zero only if there is
nothing else. -/
theorem toDigits_eq (n : Nat) : ∃ d ds, Nat.toDigits 10 n = (d :: ds).map Nat.digitChar ∧
    (∀ e ∈ d :: ds, e < 10) ∧ ofDigits (d :: ds) = n ∧ (d = 0 → ds = []) := by
  induction n using Nat.strongRecOn with
  | ind n ih =>
    by_cases hn : n < 10
    · exact ⟨n, [], Nat.toDigits_of_lt_base hn, by simpa using hn, Nat.zero_add n, fun _ => rfl⟩
    · obtain ⟨d, ds, hds, hlt, hval, hzero⟩ := ih (n / 10) (by omega)
      refine ⟨d, ds ++ [n % 10], ?_, ?_, ?_, ?_⟩
      · rw [Nat.toDigits_of_base_le (by decide) (by omega), hds]
        simp
      · intro e he
        rcases List.mem_append.1 (show e ∈ (d :: ds) ++ [n % 10] from he) with he | he
        · exact hlt e he
        · obtain rfl := List.mem_singleton.1 he
          omega
      · show ofDigits ((d :: ds) ++ [n % 10]) = n
        rw [ofDigits_append, hval]
        omega
      · rintro rfl
        obtain rfl := hzero rfl
        have : ofDigits [0] = 0 := rfl
        omega

theorem digits_map {ds : List Nat} (h : ∀ d ∈ ds, d < 10) :
    digits (ds.map Nat.digitChar) = (ds, []) := by
  induction ds with
  | nil => rfl
  | cons d ds ih =>
    rw [List.map_cons]
    unfold digits
    rw [digit?_digitChar (h d List.mem_cons_self), ih fun e he => h e (List.mem_cons_of_mem d he)]

/-- A text that starts with a digit is read as a number. -/
theorem value_digit {d : Nat} (h : d < 10) (fuel depth : Nat) (cs : List Char) :
    value (fuel + 1) depth (Nat.digitChar d :: cs) = number false (Nat.digitChar d :: cs) := by
  interval_cases d <;> rfl

/-- A natural number is read from its digits, also behind a minus. -/
theorem number_toDigits (n : Nat) : ∃ ds, ofDigits ds = n ∧ ∀ negative,
    number negative (Nat.toDigits 10 n) = (numberValue negative ds [] none, some []) := by
  obtain ⟨d, ds, heq, hlt, hval, hzero⟩ := toDigits_eq n
  refine ⟨d :: ds, hval, fun negative => ?_⟩
  have hd : digits (Nat.toDigits 10 n) = (d :: ds, []) := heq ▸ digits_map hlt
  rw [number_of_digits hd hzero]
  rfl

/-- A value that is written as a number. -/
def IsNumber : Json → Prop
  | .int _ | .float _ => True
  | _ => False

theorem not_isNumber_string (cs : List Char) : ¬(string cs).1.IsNumber := by
  unfold string
  split
  · exact id
  · split <;> exact id

theorem not_isNumber_word {w : List Char} (h : ¬j.IsNumber) (cs : List Char) :
    ¬(word w j cs).1.IsNumber := by
  unfold word
  split
  · exact h
  · exact id

theorem not_isNumber_within (h : ¬j.IsNumber) (depth : Nat) (rest : Option (List Char)) :
    ¬(within depth j rest).1.IsNumber := by
  unfold within
  split
  · exact id
  · exact h

theorem eq_digitChar_of_isSome {c : Char} (h : (digit? c).isSome) :
    ∃ d < 10, c = Nat.digitChar d := by
  unfold digit? at h
  split at h
  · rename_i hc
    have hlow : 48 ≤ c.toNat := hc.1
    have hhigh : c.toNat ≤ 57 := hc.2
    refine ⟨c.toNat - 48, by omega, Char.toNat_inj.1 ?_⟩
    rw [Nat.toNat_digitChar_of_lt_ten (by omega)]
    omega
  · cases h

/-- Where a number is read, a minus or a digit stands. -/
theorem value_isNumber {fuel depth : Nat} (hj : j.IsNumber)
    (hcs : value (fuel + 1) depth cs = (j, some cs')) :
    (∃ t, skipGap cs = '-' :: t ∧ number true t = (j, some cs')) ∨
      ∃ d < 10, ∃ t, skipGap cs = Nat.digitChar d :: t ∧
        number false (Nat.digitChar d :: t) = (j, some cs') := by
  have hfst {p : Json × Option (List Char)} (hp : p = (j, some cs')) : p.1.IsNumber := hp ▸ hj
  unfold value at hcs
  split at hcs
  · cases hcs
  · exact absurd (hfst hcs) (not_isNumber_string _)
  · split at hcs <;> exact absurd (hfst hcs) (not_isNumber_within id _ _)
  · split at hcs <;> exact absurd (hfst hcs) (not_isNumber_within id _ _)
  · rename_i t hgap
    exact .inl ⟨t, hgap, hcs⟩
  · exact absurd (hfst hcs) (not_isNumber_word id _)
  · exact absurd (hfst hcs) (not_isNumber_word id _)
  · exact absurd (hfst hcs) (not_isNumber_word id _)
  · rename_i hne _ _ _ _ _ _ _
    obtain ⟨c, t, hgap⟩ := List.exists_cons_of_ne_nil hne
    rw [hgap] at hcs ⊢
    cases hc : digit? c with
    | none =>
      unfold number digits at hcs
      rw [hc] at hcs
      cases hcs
    | some e =>
      have hsome : (digit? c).isSome := by rw [hc]; rfl
      obtain ⟨d, hd, rfl⟩ := eq_digitChar_of_isSome hsome
      exact .inr ⟨d, hd, t, rfl, hcs⟩

theorem value_skipGap (fuel depth : Nat) (cs : List Char) :
    value fuel depth (skipGap cs) = value fuel depth cs := by
  have hgap : skipGap (skipGap cs) = skipGap cs := List.dropWhile_idempotent isGap cs
  cases fuel with
  | zero => rfl
  | succ fuel =>
    unfold value
    rw [hgap]

/-- A number ends where the text ends in which it stands. -/
theorem value_append (h : Ends rest) {fuel depth : Nat} (hj : j.IsNumber)
    (hcs : value (fuel + 1) depth cs = (j, some cs')) (fuel' depth' : Nat) :
    value (fuel' + 1) depth' (cs ++ rest) = (j, some (cs' ++ rest)) := by
  have hgap {c : Char} {t : List Char} (hc : skipGap cs = c :: t) :
      skipGap (cs ++ rest) = c :: (t ++ rest) := by
    unfold skipGap at hc ⊢
    rw [List.dropWhile_append, hc]
    rfl
  rw [← value_skipGap]
  rcases value_isNumber hj hcs with ⟨t, hc, ht⟩ | ⟨d, hd, t, hc, ht⟩
  · rw [hgap hc]
    exact number_append h ht
  · rw [hgap hc, value_digit hd]
    exact number_append h ht

end Numbers

/-! ## Strings -/

section Strings

theorem hexDigit?_hexChar {n : Nat} (h : n < 16) : Text.hexDigit? (hexChar n) = some n := by
  have hall : ∀ n < 16, Text.hexDigit? (hexChar n) = some n := by decide
  exact hall n h

theorem bind_pair_eq_map {α β γ : Type} (o : Option (α × β)) (f : α → γ) :
    (do let (a, b) ← o; return (f a, b)) = o.map fun p => (f p.1, p.2) := by
  cases o <;> rfl

theorem glyphs_char {c : Char} (hq : c ≠ '"') (hb : c ≠ '\\') (hc : ¬c.toNat < 0x20)
    (cs : List Char) :
    glyphs (c :: cs) = (glyphs cs).map fun p => (.char c :: p.1, p.2) := by
  rw [glyphs]
  · rw [if_neg (not_or.2 ⟨hc, hb⟩)]
    exact bind_pair_eq_map (glyphs cs) (.char c :: ·)
  · exact hq
  · exact fun _ _ _ _ _ h _ => hb h
  · exact fun _ _ h _ => hb h

theorem glyphs_short {e c : Char} (h : shortEscape? e = some c) (hu : e ≠ 'u') (cs : List Char) :
    glyphs ('\\' :: e :: cs) = (glyphs cs).map fun p => (.char c :: p.1, p.2) := by
  rw [glyphs, h]
  · exact bind_pair_eq_map (glyphs cs) (.char c :: ·)
  · exact fun _ _ _ _ _ he _ => hu he

theorem glyphs_unicode {a b : Char} {n : Nat} (h : fourDigits? '0' '0' a b = some n)
    (cs : List Char) :
    glyphs ('\\' :: 'u' :: '0' :: '0' :: a :: b :: cs) =
      (glyphs cs).map fun p => (.codeUnit n :: p.1, p.2) := by
  rw [glyphs, h]
  exact bind_pair_eq_map (glyphs cs) (.codeUnit n :: ·)

theorem fourDigits?_hexChar {n : Nat} (h : n < 0x20) :
    fourDigits? '0' '0' (hexChar (n / 16)) (hexChar (n % 16)) = some n := by
  have hzero : Text.hexDigit? '0' = some 0 := rfl
  unfold fourDigits?
  rw [hzero, hexDigit?_hexChar (by omega), hexDigit?_hexChar (by omega)]
  show some (((0 * 16 + 0) * 16 + n / 16) * 16 + n % 16) = some n
  congr 1
  omega

theorem pairSurrogates_codeUnit {n : Nat} (h : n < 0xD800) (gs : List Glyph) :
    pairSurrogates (.codeUnit n :: gs) = (pairSurrogates gs).map (.ofNat n :: ·) := by
  conv_lhs => unfold pairSurrogates
  rw [if_neg (by omega), if_neg (by omega)]

/-- Each character is read from its own part of the literal. -/
theorem glyphs_escape (c : Char) : ∃ g : Glyph,
    (∀ cs, glyphs (escape c ++ cs) = (glyphs cs).map fun p => (g :: p.1, p.2)) ∧
      ∀ gs, pairSurrogates (g :: gs) = (pairSurrogates gs).map (c :: ·) := by
  unfold escape
  split
  · exact ⟨.char '"', glyphs_short rfl (by decide), fun _ => rfl⟩
  · exact ⟨.char '\\', glyphs_short rfl (by decide), fun _ => rfl⟩
  · exact ⟨.char '\x08', glyphs_short rfl (by decide), fun _ => rfl⟩
  · exact ⟨.char '\x0C', glyphs_short rfl (by decide), fun _ => rfl⟩
  · exact ⟨.char '\n', glyphs_short rfl (by decide), fun _ => rfl⟩
  · exact ⟨.char '\r', glyphs_short rfl (by decide), fun _ => rfl⟩
  · exact ⟨.char '\t', glyphs_short rfl (by decide), fun _ => rfl⟩
  · rename_i hq hb _ _ _ _ _
    split
    · rename_i hc
      refine ⟨.codeUnit c.toNat, glyphs_unicode (fourDigits?_hexChar hc), fun gs => ?_⟩
      rw [pairSurrogates_codeUnit (by omega), Char.ofNat_toNat]
    · rename_i hc
      exact ⟨.char c, glyphs_char hq hb hc, fun _ => rfl⟩

theorem glyphs_flatMap_escape (s rest : List Char) :
    ∃ gs, glyphs (s.flatMap escape ++ '"' :: rest) = some (gs, rest) ∧
      pairSurrogates gs = some s := by
  induction s with
  | nil => exact ⟨[], rfl, rfl⟩
  | cons c s ih =>
    obtain ⟨gs, hgs, hs⟩ := ih
    obtain ⟨g, hg, hc⟩ := glyphs_escape c
    refine ⟨g :: gs, ?_, ?_⟩
    · rw [List.flatMap_cons, List.append_assoc, hg, hgs]
      rfl
    · rw [hc, hs]
      rfl

/-- A string literal is read behind its opening quote. -/
theorem string_flatMap_escape (s : String) (rest : List Char) :
    string (s.toList.flatMap escape ++ '"' :: rest) = (.str s, some rest) := by
  obtain ⟨gs, hgs, hs⟩ := glyphs_flatMap_escape s.toList rest
  unfold string
  rw [hgs]
  simp only [hs, String.ofList_toList]

theorem toList_quote (s : String) :
    (quote s).toList = '"' :: (s.toList.flatMap escape ++ ['"']) := by
  unfold quote
  rw [String.toList_ofList]
  rfl

end Strings

/-! ## Values -/

section Values

mutual

/-- The text of the value stands for it: integers fit 64 bits, doubles are read back from their
texts, and there are no unfit and no torn parts. -/
def Printable : Json → Prop
  | .null | .bool _ | .str _ => True
  | .int n => -0x8000000000000000 ≤ n ∧ n < 0x10000000000000000
  | .float x => Document.ofText (x.text .json) = ⟨.float x, true⟩
  | .arr items => PrintableItems items
  | .obj members => PrintableMembers members
  | .unfit | .torn => False

/-- All items are printable. -/
def PrintableItems : List Json → Prop
  | [] => True
  | j :: js => j.Printable ∧ PrintableItems js

/-- All member values are printable. -/
def PrintableMembers : List (String × Json) → Prop
  | [] => True
  | (_, j) :: ms => j.Printable ∧ PrintableMembers ms

end

/-! ### Integers and doubles -/

theorem numberValue_natural {ds : List Nat} {n : Nat} (hds : ofDigits ds = n)
    (hn : n < UInt64.size) : numberValue false ds [] none = .int n := by
  unfold numberValue
  rw [hds]
  simp [hn]

theorem numberValue_minus {ds : List Nat} {n : Nat} (hds : ofDigits ds = n) (hpos : 0 < n)
    (hn : n ≤ 0x8000000000000000) : numberValue true ds [] none = .int (-n) := by
  unfold numberValue
  rw [hds]
  simp [hpos, hn]

theorem value_int {n : Int} (h : (Json.int n).Printable) (fuel depth : Nat) :
    value (fuel + 1) depth (render (.int n)).toList = (.int n, some []) := by
  obtain ⟨hlow, hhigh⟩ := h
  obtain ⟨d, ds, heq, hlt, -⟩ := toDigits_eq n.natAbs
  obtain ⟨es, hes, hnum⟩ := number_toDigits n.natAbs
  by_cases hn : n < 0
  · have htext : (render (.int n)).toList = '-' :: Nat.toDigits 10 n.natAbs := by
      unfold render
      rw [if_pos hn, String.toList_append, String.toList_ofList, String.toList_ofList]
      rfl
    rw [htext]
    show number true (Nat.toDigits 10 n.natAbs) = _
    rw [hnum, numberValue_minus hes (by omega) (by omega), Int.ofNat_natAbs_of_nonpos (by omega),
      Int.neg_neg]
  · have htext : (render (.int n)).toList = Nat.toDigits 10 n.natAbs := by
      unfold render
      rw [if_neg hn, String.toList_ofList]
    have hsize : n.natAbs < UInt64.size := by
      show n.natAbs < 18446744073709551616
      omega
    rw [htext, heq, List.map_cons, value_digit (hlt d List.mem_cons_self), ← List.map_cons, ← heq,
      hnum, numberValue_natural hes hsize, Int.natAbs_of_nonneg (by omega)]

theorem value_float {x : Binary64} (h : (Json.float x).Printable) (hr : Ends rest)
    (fuel depth : Nat) :
    ∃ cs, value (fuel + 1) depth ((x.text .json).toList ++ rest) = (.float x, some cs) ∧
      skipGap cs = rest := by
  change Document.ofText (x.text .json) = ⟨.float x, true⟩ at h
  unfold Document.ofText at h
  rcases hv : value (2 * (x.text .json).toList.length + 2) maxDepth (x.text .json).toList with
    ⟨j, _ | cs⟩
  · simp only [hv, Document.mk.injEq] at h
    cases h.2
  · simp only [hv, Document.mk.injEq] at h
    obtain ⟨rfl, hgap⟩ := h
    have hx : (Json.float x).IsNumber := trivial
    refine ⟨cs ++ rest, value_append hr hx hv fuel depth, ?_⟩
    unfold skipGap at hgap ⊢
    rw [List.dropWhile_append, if_pos hgap]
    exact hr.skipGap

/-! ### Arrays and objects -/

section Brackets

variable {fuel depth : Nat} {js : List Json} {ms : List (String × Json)} {k : String}
  {tail : List Char}

theorem within_of_pos (h : 0 < depth) (j : Json) (rest : Option (List Char)) :
    within depth j rest = (j, rest) := by
  unfold within
  rw [if_neg fun hd => Nat.ne_of_gt h hd.1]

theorem items_skipGap (fuel depth : Nat) (cs : List Char) :
    items fuel depth (skipGap cs) = items fuel depth cs := by
  cases fuel with
  | zero => rfl
  | succ fuel =>
    unfold items
    rw [value_skipGap]

theorem members_skipGap (fuel depth : Nat) (cs : List Char) :
    members fuel depth (skipGap cs) = members fuel depth cs := by
  have hgap : skipGap (skipGap cs) = skipGap cs := List.dropWhile_idempotent isGap cs
  cases fuel with
  | zero => rfl
  | succ fuel =>
    unfold members
    rw [hgap]

theorem items_last (hv : value fuel depth cs = (j, some cs')) (hg : skipGap cs' = ']' :: rest) :
    items (fuel + 1) depth cs = ([j], some rest) := by
  conv_lhs => unfold items
  rw [hv]
  simp only [hg]

theorem items_comma (hv : value fuel depth cs = (j, some cs')) (hg : skipGap cs' = ',' :: tail)
    (ht : items fuel depth tail = (js, some rest)) :
    items (fuel + 1) depth cs = (j :: js, some rest) := by
  conv_lhs => unfold items
  rw [hv]
  simp only [hg, ht]

/-- A member is read behind its name. -/
theorem members_quote (fuel depth : Nat) (k : String) (cs : List Char) :
    members (fuel + 1) depth ((quote k).toList ++ ':' :: cs) =
      match value fuel depth cs with
      | (j, none) => ([(k, j)], none)
      | (j, some rest) =>
        match skipGap rest with
        | ',' :: cs => let (ms, rest) := members fuel depth cs; ((k, j) :: ms, rest)
        | '}' :: cs => ([(k, j)], some cs)
        | _ => ([(k, j), ("", .torn)], none) := by
  have htext : (quote k).toList ++ ':' :: cs =
      '"' :: (k.toList.flatMap escape ++ '"' :: ':' :: cs) := by
    rw [toList_quote]
    simp
  rw [htext]
  conv_lhs => unfold members
  rw [skipGap_cons rfl]
  simp only [string_flatMap_escape]
  rfl

theorem members_last (hv : value fuel depth cs = (j, some cs')) (hg : skipGap cs' = '}' :: rest) :
    members (fuel + 1) depth ((quote k).toList ++ ':' :: cs) = ([(k, j)], some rest) := by
  rw [members_quote, hv]
  simp only [hg]

theorem members_comma (hv : value fuel depth cs = (j, some cs')) (hg : skipGap cs' = ',' :: tail)
    (ht : members fuel depth tail = (ms, some rest)) :
    members (fuel + 1) depth ((quote k).toList ++ ':' :: cs) = ((k, j) :: ms, some rest) := by
  rw [members_quote, hv]
  simp only [hg, ht]

theorem value_open_bracket (fuel depth : Nat) (cs : List Char) :
    value (fuel + 1) depth ('[' :: cs) = match skipGap cs with
      | ']' :: cs => within depth (.arr []) (some cs)
      | cs => let (items, rest) := items fuel (depth - 1) cs; within depth (.arr items) rest := rfl

theorem value_open_brace (fuel depth : Nat) (cs : List Char) :
    value (fuel + 1) depth ('{' :: cs) = match skipGap cs with
      | '}' :: cs => within depth (.obj []) (some cs)
      | cs => let (ms, rest) := members fuel (depth - 1) cs; within depth (.obj ms) rest := rfl

theorem value_bracket (hd : 0 < depth) (h : items fuel (depth - 1) cs = (js, some rest)) :
    value (fuel + 1) depth ('[' :: cs) = (.arr js, some rest) := by
  have hskip : items fuel (depth - 1) (skipGap cs) = (js, some rest) :=
    (items_skipGap fuel (depth - 1) cs).trans h
  rw [value_open_bracket]
  split
  · rename_i t heq
    rw [heq] at hskip
    cases fuel with
    | zero => cases hskip
    | succ fuel =>
      cases fuel with
      | zero => cases hskip
      | succ fuel => cases hskip
  · simp only [hskip]
    exact within_of_pos hd _ _

theorem value_brace (hd : 0 < depth) (h : members fuel (depth - 1) cs = (ms, some rest)) :
    value (fuel + 1) depth ('{' :: cs) = (.obj ms, some rest) := by
  have hskip : members fuel (depth - 1) (skipGap cs) = (ms, some rest) :=
    (members_skipGap fuel (depth - 1) cs).trans h
  rw [value_open_brace]
  split
  · rename_i t heq
    rw [heq] at hskip
    cases fuel with
    | zero => cases hskip
    | succ fuel => cases hskip
  · simp only [hskip]
    exact within_of_pos hd _ _

end Brackets

/-! ### All values

Each character of a text is worth two units of fuel. -/

theorem length_pos {fuel depth : Nat} (h : value fuel depth cs = (j, some cs')) :
    0 < cs.length := by
  cases cs with
  | nil => cases fuel <;> cases h
  | cons c cs => exact Nat.succ_pos _

theorem toList_arr (items : List Json) :
    (render (.arr items)).toList =
      '[' :: ((",".intercalate (renderItems items)).toList ++ [']']) := by
  unfold render
  simp only [String.toList_append]
  rfl

theorem toList_obj (ms : List (String × Json)) :
    (render (.obj ms)).toList =
      '{' :: ((",".intercalate (renderMembers ms)).toList ++ ['}']) := by
  unfold render
  simp only [String.toList_append]
  rfl

theorem toList_intercalate_cons (a b : String) (l : List String) :
    (",".intercalate (a :: b :: l)).toList =
      a.toList ++ ',' :: (",".intercalate (b :: l)).toList := by
  rw [String.intercalate_cons_cons, String.toList_append, String.toList_append, List.append_assoc]
  rfl

theorem toList_member (k : String) (j : Json) :
    (quote k ++ ":" ++ j.render).toList = (quote k).toList ++ ':' :: j.render.toList := by
  rw [String.toList_append, String.toList_append, List.append_assoc]
  rfl

theorem length_render_pos (h : j.Printable) : 0 < j.render.toList.length := by
  cases j with
  | null => decide
  | bool b => cases b <;> decide
  | int n => exact length_pos (value_int h 0 0)
  | float x =>
    obtain ⟨cs, hv, -⟩ := value_float h .nil 0 0
    rw [List.append_nil] at hv
    exact length_pos hv
  | str s =>
    unfold render
    rw [toList_quote]
    exact Nat.succ_pos _
  | arr items =>
    rw [toList_arr]
    exact Nat.succ_pos _
  | obj ms =>
    rw [toList_obj]
    exact Nat.succ_pos _
  | unfit | torn => exact False.elim h

theorem exists_fuel {fuel : Nat} (h : j.Printable) (hf : 2 * j.render.toList.length ≤ fuel) :
    ∃ f, fuel = f + 1 :=
  ⟨fuel - 1, by have := length_render_pos h; omega⟩

mutual

/-- A value is read up to its end. -/
theorem value_render : ∀ (j : Json) (fuel depth : Nat) (rest : List Char), j.Printable →
    2 * j.render.toList.length ≤ fuel → j.depth ≤ depth → Ends rest →
    ∃ cs, value fuel depth (j.render.toList ++ rest) = (j, some cs) ∧ skipGap cs = rest
  | .null => by
    intro fuel depth rest hp hf hd hr
    obtain ⟨fuel, rfl⟩ := exists_fuel hp hf
    exact ⟨rest, rfl, hr.skipGap⟩
  | .bool b => by
    intro fuel depth rest hp hf hd hr
    obtain ⟨fuel, rfl⟩ := exists_fuel hp hf
    cases b <;> exact ⟨rest, rfl, hr.skipGap⟩
  | .int n => by
    intro fuel depth rest hp hf hd hr
    obtain ⟨fuel, rfl⟩ := exists_fuel hp hf
    refine ⟨[] ++ rest, ?_, hr.skipGap⟩
    exact value_append hr (show (Json.int n).IsNumber from trivial) (value_int hp 0 0) fuel depth
  | .float x => by
    intro fuel depth rest hp hf hd hr
    obtain ⟨fuel, rfl⟩ := exists_fuel hp hf
    exact value_float hp hr fuel depth
  | .str s => by
    intro fuel depth rest hp hf hd hr
    obtain ⟨fuel, rfl⟩ := exists_fuel hp hf
    refine ⟨rest, ?_, hr.skipGap⟩
    unfold render
    rw [toList_quote, List.cons_append, List.append_assoc]
    exact string_flatMap_escape s rest
  | .arr items => by
    intro fuel depth rest hp hf hd hr
    obtain ⟨fuel, rfl⟩ := exists_fuel hp hf
    have hpos : 0 < depth := Nat.lt_of_lt_of_le (Nat.succ_pos _) hd
    refine ⟨rest, ?_, hr.skipGap⟩
    rw [toList_arr, List.length_cons, List.length_append] at hf
    rw [toList_arr, List.cons_append, List.append_assoc]
    by_cases hne : items = []
    · subst hne
      exact within_of_pos hpos _ _
    · have hd' : depthItems items ≤ depth - 1 := Nat.le_sub_one_of_lt hd
      exact value_bracket hpos (items_render items fuel (depth - 1) rest hne hp (by omega) hd')
  | .obj ms => by
    intro fuel depth rest hp hf hd hr
    obtain ⟨fuel, rfl⟩ := exists_fuel hp hf
    have hpos : 0 < depth := Nat.lt_of_lt_of_le (Nat.succ_pos _) hd
    refine ⟨rest, ?_, hr.skipGap⟩
    rw [toList_obj, List.length_cons, List.length_append] at hf
    rw [toList_obj, List.cons_append, List.append_assoc]
    by_cases hne : ms = []
    · subst hne
      exact within_of_pos hpos _ _
    · have hd' : depthMembers ms ≤ depth - 1 := Nat.le_sub_one_of_lt hd
      exact value_brace hpos (members_render ms fuel (depth - 1) rest hne hp (by omega) hd')
  | .unfit | .torn => fun _ _ _ hp => False.elim hp

/-- Items are read up to the closing bracket. -/
theorem items_render : ∀ (js : List Json) (fuel depth : Nat) (rest : List Char),
    js ≠ [] → PrintableItems js →
    2 * (",".intercalate (renderItems js)).toList.length < fuel → depthItems js ≤ depth →
    items fuel depth ((",".intercalate (renderItems js)).toList ++ ']' :: rest) = (js, some rest)
  | [] => fun _ _ _ hne => (hne rfl).elim
  | j :: js => by
    intro fuel depth rest _ hp hf hd
    obtain ⟨fuel, rfl⟩ := Nat.exists_eq_succ_of_ne_zero (Nat.ne_zero_of_lt hf)
    have hdj : j.depth ≤ depth := Nat.le_trans (Nat.le_max_left _ _) hd
    have hdjs : depthItems js ≤ depth := Nat.le_trans (Nat.le_max_right _ _) hd
    have hvalue (rest : List Char) (hfj : 2 * j.render.toList.length ≤ fuel) (hr : Ends rest) :=
      value_render j fuel depth rest hp.1 hfj hdj hr
    have hitems := items_render js fuel depth rest
    cases js with
    | nil =>
      simp only [renderItems, String.intercalate_singleton] at hf ⊢
      obtain ⟨cs, hv, hgap⟩ := hvalue (']' :: rest) (by omega) (.cons (.inr (.inl rfl)) rest)
      exact items_last hv hgap
    | cons k ks =>
      simp only [renderItems, toList_intercalate_cons, List.length_append, List.length_cons] at hf
      simp only [renderItems, toList_intercalate_cons, List.append_assoc, List.cons_append]
      obtain ⟨cs, hv, hgap⟩ := hvalue (',' :: _) (by omega) (.cons (.inl rfl) _)
      exact items_comma hv hgap (hitems nofun hp.2 (by simp only [renderItems]; omega) hdjs)

/-- Members are read up to the closing brace. -/
theorem members_render : ∀ (ms : List (String × Json)) (fuel depth : Nat) (rest : List Char),
    ms ≠ [] → PrintableMembers ms →
    2 * (",".intercalate (renderMembers ms)).toList.length < fuel → depthMembers ms ≤ depth →
    members fuel depth ((",".intercalate (renderMembers ms)).toList ++ '}' :: rest) =
      (ms, some rest)
  | [] => fun _ _ _ hne => (hne rfl).elim
  | (k, j) :: ms => by
    intro fuel depth rest _ hp hf hd
    obtain ⟨fuel, rfl⟩ := Nat.exists_eq_succ_of_ne_zero (Nat.ne_zero_of_lt hf)
    have hdj : j.depth ≤ depth := Nat.le_trans (Nat.le_max_left _ _) hd
    have hdms : depthMembers ms ≤ depth := Nat.le_trans (Nat.le_max_right _ _) hd
    have hvalue (rest : List Char) (hfj : 2 * j.render.toList.length ≤ fuel) (hr : Ends rest) :=
      value_render j fuel depth rest hp.1 hfj hdj hr
    have hmembers := members_render ms fuel depth rest
    cases ms with
    | nil =>
      simp only [renderMembers, String.intercalate_singleton, toList_member, List.length_append,
        List.length_cons] at hf
      simp only [renderMembers, String.intercalate_singleton, toList_member, List.append_assoc,
        List.cons_append]
      obtain ⟨cs, hv, hgap⟩ := hvalue ('}' :: rest) (by omega) (.cons (.inr (.inr rfl)) rest)
      exact members_last hv hgap
    | cons m ms =>
      obtain ⟨l, i⟩ := m
      simp only [renderMembers, toList_intercalate_cons, toList_member, List.length_append,
        List.length_cons] at hf
      simp only [renderMembers, toList_intercalate_cons, toList_member, List.append_assoc,
        List.cons_append]
      obtain ⟨cs, hv, hgap⟩ := hvalue (',' :: _) (by omega) (.cons (.inl rfl) _)
      exact members_comma hv hgap (hmembers nofun hp.2 (by simp only [renderMembers]; omega) hdms)

end

/-- A printable value is read back from its text. -/
theorem Printable.ofText_render (h : j.Printable) (hd : j.depth ≤ maxDepth) :
    Document.ofText j.render = ⟨j, true⟩ := by
  obtain ⟨cs, hv, hgap⟩ := value_render j (2 * j.render.toList.length + 2) maxDepth [] h
    (Nat.le_add_right _ 2) hd .nil
  rw [List.append_nil] at hv
  unfold Document.ofText
  simp only [hv, hgap, List.isEmpty_nil]

end Values

end Cityscape.Json
