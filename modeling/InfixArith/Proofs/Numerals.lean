import InfixArith.Number.Ieee
import Mathlib.Data.List.Chain
import Mathlib.Data.List.TakeWhile
/-!
# The characters of numerals

What is written for a number is made of few characters: digits and the point of a finite one, the
minus sign, and the letters of the two words for what is not finite. What is read as a number is a
number word, in which the glyph of an operator has two places only: it stands first, or behind the
letter that begins an exponent.
-/

namespace InfixArith

theorem Decimal.isDigit_of_mem_layout {d : Decimal} {c : Char} (h : c ∈ d.layout) :
    c.isDigit = true ∨ c = '.' := by
  have hdigits : ∀ {n : Nat}, c ∈ Nat.toDigits 10 n → c.isDigit = true :=
    Nat.isDigit_of_mem_toDigits (by omega) (by omega)
  rw [layout] at h
  split at h
  · exact .inl (hdigits h)
  · obtain h | h := List.mem_append.mp h
    · exact .inl (hdigits h)
    · obtain rfl | h := List.mem_cons.mp h
      · exact .inr rfl
      · obtain h | h := List.mem_append.mp h
        · rw [List.eq_of_mem_replicate h]
          exact .inl (by decide)
        · exact .inl (hdigits h)

namespace Numeral

/-- The characters of written numbers other than digits. -/
def marks : List Char := ['-', '.', 'N', 'a', 'i', 'n', 'f']

theorem mem_of_mem_layoutSigned {negative : Bool} {chars : List Char} {c : Char}
    (h : c ∈ layoutSigned negative chars) : c = '-' ∨ c ∈ chars := by
  cases negative with
  | false => exact .inr h
  | true => exact List.mem_cons.mp h

theorem isDigit_of_mem_layout {numeral : Numeral} {c : Char} (h : c ∈ numeral.layout) :
    c.isDigit = true ∨ c ∈ marks := by
  have hnan : ∀ c ∈ ['N', 'a', 'N'], c ∈ marks := by simp [marks]
  have hinfinity : ∀ c ∈ ['i', 'n', 'f'], c ∈ marks := by simp [marks]
  cases numeral with
  | nan => exact .inr (hnan c h)
  | infinity negative =>
    obtain rfl | h := mem_of_mem_layoutSigned h
    · exact .inr (by decide)
    · exact .inr (hinfinity c h)
  | finite negative magnitude =>
    obtain rfl | h := mem_of_mem_layoutSigned h
    · exact .inr (by decide)
    · obtain h | rfl := Decimal.isDigit_of_mem_layout h
      · exact .inl h
      · exact .inr (by decide)

/-! ### Number words -/

inductive IsSign : List Char → Prop
  | none : IsSign []
  | plus : IsSign ['+']
  | minus : IsSign ['-']

/-- Digits with at most one point. -/
inductive IsMantissa : List Char → Prop
  | whole {digits : List Char} (hne : digits ≠ []) (h : ∀ c ∈ digits, c.isDigit = true) :
      IsMantissa digits
  | pointed {digits fraction : List Char} (hne : digits ++ fraction ≠ [])
      (h : ∀ c ∈ digits ++ fraction, c.isDigit = true) : IsMantissa (digits ++ '.' :: fraction)

inductive IsExponent : List Char → Prop
  | none : IsExponent []
  | some {letter : Char} {sign digits : List Char} (hletter : letter = 'e' ∨ letter = 'E')
      (hsign : IsSign sign)
      (hne : digits ≠ []) (h : ∀ c ∈ digits, c.isDigit = true) :
      IsExponent (letter :: (sign ++ digits))

/-- The words for what is not finite, in lower case. -/
def names : List (List Char) :=
  [['n', 'a', 'n'], ['i', 'n', 'f'], ['i', 'n', 'f', 'i', 'n', 'i', 't', 'y']]

/-- An optional sign before a name, or before a decimal number with an optional exponent. -/
inductive IsNumberWord : List Char → Prop
  | name {sign letters : List Char} (hsign : IsSign sign) (h : letters.map Char.toLower ∈ names) :
      IsNumberWord (sign ++ letters)
  | decimal {sign mantissa exponent : List Char} (hsign : IsSign sign)
      (hmantissa : IsMantissa mantissa)
      (hexponent : IsExponent exponent) : IsNumberWord (sign ++ mantissa ++ exponent)

theorem isDigit_of_exponentMagnitude? {digits : List Char} (h : exponentMagnitude? digits ≠ none) :
    digits ≠ [] ∧ ∀ c ∈ digits, c.isDigit = true := by
  unfold exponentMagnitude? at h
  split at h
  next hdigits => simpa using hdigits
  · exact absurd rfl h

theorem isExponent_of_exponent? {chars : List Char} {exponent : Int}
    (h : exponent? chars = some exponent) :
    IsExponent chars := by
  unfold exponent? at h
  split at h
  · exact .none
  · split at h
    next hletter =>
      -- A sign is looked for in front of the digits. Each of the three outcomes is in the grammar.
      split at h
      all_goals
        obtain ⟨hne, hall⟩ := isDigit_of_exponentMagnitude? fun hnone => by
          rw [hnone] at h
          cases h
      · exact .some hletter .minus hne hall
      · exact .some hletter .plus hne hall
      · exact .some hletter .none hne hall
    · cases h

theorem exists_splitFraction_eq (chars : List Char) :
    ∃ fraction rest, splitFraction chars = (fraction, rest) ∧ (∀ c ∈ fraction, c.isDigit = true) ∧
      (fraction = [] ∧ chars = rest ∨ chars = '.' :: (fraction ++ rest)) := by
  unfold splitFraction
  split
  next chars =>
    refine ⟨_, _, rfl, fun c hc => List.mem_takeWhile_imp hc, .inr ?_⟩
    rw [List.takeWhile_append_dropWhile]
  · exact ⟨[], chars, rfl, nofun, .inl ⟨rfl, rfl⟩⟩

theorem isNumberWord_of_decimal? {sign chars : List Char} {magnitude : Decimal}
    (hsign : IsSign sign)
    (h : decimal? chars = some magnitude) : IsNumberWord (sign ++ chars) := by
  obtain ⟨fraction, rest, hsplit, hfraction, hpoint⟩ :=
    exists_splitFraction_eq (chars.dropWhile Char.isDigit)
  rw [decimal?, hsplit] at h
  obtain ⟨hne, hmap⟩ := Option.ite_none_left_eq_some.mp h
  obtain ⟨exponent, hexponent, -⟩ := Option.map_eq_some_iff.mp hmap
  have hdigits : ∀ c ∈ chars.takeWhile Char.isDigit ++ fraction, c.isDigit = true := by
    intro c hc
    obtain hc | hc := List.mem_append.mp hc
    · exact List.mem_takeWhile_imp hc
    · exact hfraction c hc
  rw [← List.takeWhile_append_dropWhile (p := Char.isDigit) (l := chars), ← List.append_assoc]
  obtain ⟨rfl, hrest⟩ | hrest := hpoint
  · rw [List.append_nil] at hne hdigits
    rw [hrest]
    exact .decimal hsign (.whole hne hdigits) (isExponent_of_exponent? hexponent)
  · rw [hrest, ← List.cons_append, ← List.append_assoc, List.append_assoc sign]
    exact .decimal hsign (.pointed hne hdigits) (isExponent_of_exponent? hexponent)

theorem isNumberWord_of_unsigned? {negative : Bool} {sign chars : List Char} {numeral : Numeral}
    (hsign : IsSign sign)
    (h : unsigned? negative chars = some numeral) : IsNumberWord (sign ++ chars) := by
  unfold unsigned? at h
  dsimp only at h
  split at h
  next hname => exact .name hsign (by simp [names, hname])
  · split at h
    next hname => exact .name hsign (by simp [names, hname])
    · obtain ⟨magnitude, hmagnitude, -⟩ := Option.map_eq_some_iff.mp h
      exact isNumberWord_of_decimal? hsign hmagnitude

theorem isNumberWord_of_ofWord? {word : String} {numeral : Numeral}
    (h : ofWord? word = some numeral) :
    IsNumberWord word.toList := by
  unfold ofWord? ofChars? at h
  split at h
  next hword =>
    rw [hword]
    exact isNumberWord_of_unsigned? .minus h
  next hword =>
    rw [hword]
    exact isNumberWord_of_unsigned? .plus h
  · exact isNumberWord_of_unsigned? .none h

/-! ### The glyphs of operators in them -/

/-- The glyph of an operator stands only behind the letter of an exponent. -/
def MayMeet (left right : Char) : Prop :=
  (∃ op : Operator, op.glyph = right) → left = 'e' ∨ left = 'E'

theorem isChain_append_of_no_glyph {left right : List Char} (hleft : left.IsChain MayMeet)
    (h : ∀ c ∈ right, ¬ ∃ op : Operator, op.glyph = c) : (left ++ right).IsChain MayMeet := by
  induction right generalizing left with
  | nil => simpa using hleft
  | cons c right ih =>
    have hconcat : (left ++ [c]).IsChain MayMeet := by
      refine List.isChain_append.mpr ⟨hleft, List.isChain_singleton c, fun own _ other hother => ?_⟩
      cases hother
      exact fun hglyph => absurd hglyph (h c List.mem_cons_self)
    rw [← List.singleton_append, ← List.append_assoc]
    exact ih hconcat fun other hother => h other (List.mem_cons_of_mem _ hother)

theorem not_glyph_of_isDigit {c : Char} (h : c.isDigit = true) :
    ¬ ∃ op : Operator, op.glyph = c := by
  rintro ⟨op, rfl⟩
  cases op <;> cases h

theorem not_glyph_of_mem_name {letters : List Char} (h : letters.map Char.toLower ∈ names) :
    ∀ c ∈ letters, ¬ ∃ op : Operator, op.glyph = c := by
  rintro c hc ⟨op, rfl⟩
  have hlower : op.glyph.toLower ∈ letters.map Char.toLower := List.mem_map_of_mem hc
  have hglyph : ∀ name ∈ names, op.glyph.toLower ∉ name := by cases op <;> decide
  exact hglyph _ h hlower

theorem IsSign.isChain {sign : List Char} (h : IsSign sign) : sign.IsChain MayMeet := by
  cases h <;> simp

theorem IsMantissa.not_glyph {mantissa : List Char} (h : IsMantissa mantissa) :
    ∀ c ∈ mantissa, ¬ ∃ op : Operator, op.glyph = c := by
  cases h with
  | whole _ hdigits => exact fun c hc => not_glyph_of_isDigit (hdigits c hc)
  | @pointed digits fraction _ hdigits =>
    intro c hc
    obtain hc | hc := List.mem_append.mp hc
    · exact not_glyph_of_isDigit (hdigits c (List.mem_append_left _ hc))
    · obtain rfl | hc := List.mem_cons.mp hc
      · rintro ⟨op, hop⟩
        cases op <;> cases hop
      · exact not_glyph_of_isDigit (hdigits c (List.mem_append_right _ hc))

theorem isChain_append_exponent {left exponent : List Char} (hleft : left.IsChain MayMeet)
    (h : IsExponent exponent) :
    (left ++ exponent).IsChain MayMeet := by
  cases h with
  | none => simpa using hleft
  | @some letter sign digits hletter hsign _ hdigits =>
    have hfirst : (left ++ [letter]).IsChain MayMeet := by
      apply isChain_append_of_no_glyph hleft
      rintro c hc ⟨op, hop⟩
      rw [List.mem_singleton.mp hc] at hop
      obtain rfl | rfl := hletter <;> cases op <;> cases hop
    have hsigned : (left ++ [letter] ++ sign).IsChain MayMeet := by
      refine List.isChain_append.mpr ⟨hfirst, hsign.isChain, fun own hown _ _ _ => ?_⟩
      rw [List.getLast?_concat] at hown
      cases hown
      exact hletter
    have hall := isChain_append_of_no_glyph hsigned fun c hc => not_glyph_of_isDigit (hdigits c hc)
    simpa using hall

theorem IsNumberWord.isChain {word : List Char} (h : IsNumberWord word) : word.IsChain MayMeet := by
  cases h with
  | name hsign hname => exact isChain_append_of_no_glyph hsign.isChain (not_glyph_of_mem_name hname)
  | decimal hsign hmantissa hexponent =>
    exact isChain_append_exponent (isChain_append_of_no_glyph hsign.isChain hmantissa.not_glyph)
      hexponent

/-- The glyph of an operator comes first or behind the letter of an exponent. -/
theorem IsNumberWord.exists_letter {before behind : List Char} {op : Operator}
    (h : IsNumberWord (before ++ op.glyph :: behind)) (hne : before ≠ []) :
    ∃ letter ∈ before, letter = 'e' ∨ letter = 'E' := by
  obtain ⟨-, -, hmeets⟩ := List.isChain_append.mp h.isChain
  exact ⟨_, List.getLast_mem hne, hmeets _ (List.getLast?_eq_some_getLast hne) _ rfl ⟨op, rfl⟩⟩

end Numeral

theorem BinaryFormat.isDigit_of_mem_writeBits {format : BinaryFormat} {bits : Nat} {c : Char}
    (h : c ∈ (format.writeBits bits).toList) : c.isDigit = true ∨ c ∈ Numeral.marks := by
  rw [writeBits, Numeral.write, String.toList_ofList] at h
  exact Numeral.isDigit_of_mem_layout h

end InfixArith
