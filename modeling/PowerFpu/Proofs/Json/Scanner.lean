import Mathlib.Data.List.TakeWhile
import PowerFpu.Proofs.Json.Grammar

/-! The scanner splits a text into the tokens that it spells.

Only a number can go on past its end, and it does not where a comma, a closing bracket or the
end of the text follows it. -/

set_option autoImplicit false

namespace PowerFpu.Json

section Pieces

theorem hexDigit?_eq_some_iff {c : Char} {n : Nat} : hexDigit? c = some n ↔ (c, n) ∈ hexDigits := by
  constructor
  · intro isDigit
    have decimal : ∀ n < 58, 48 ≤ n → (Char.ofNat n, n - 48) ∈ hexDigits := by decide
    have lower : ∀ n < 103, 97 ≤ n → (Char.ofNat n, n - 97 + 10) ∈ hexDigits := by decide
    have upper : ∀ n < 71, 65 ≤ n → (Char.ofNat n, n - 65 + 10) ∈ hexDigits := by decide
    rw [← Char.ofNat_toNat c]
    simp only [hexDigit?, Char.le_def, UInt32.le_iff_toNat_le] at isDigit
    change (if 48 ≤ c.toNat ∧ c.toNat ≤ 57 then some (c.toNat - 48)
      else if 97 ≤ c.toNat ∧ c.toNat ≤ 102 then some (c.toNat - 97 + 10)
      else if 65 ≤ c.toNat ∧ c.toNat ≤ 70 then some (c.toNat - 65 + 10) else none) = some n at isDigit
    split_ifs at isDigit with isDecimal isLower isUpper <;> cases isDigit
    · exact decimal _ (by omega) isDecimal.1
    · exact lower _ (by omega) isLower.1
    · exact upper _ (by omega) isUpper.1
  · intro listed
    have values : ∀ digit ∈ hexDigits, hexDigit? digit.1 = some digit.2 := by decide
    exact values (c, n) listed

theorem escapedChar?_eq_some_iff {c value : Char} : escapedChar? c = some value ↔ (c, value) ∈ shortEscapes := by
  constructor
  · intro escaped
    unfold escapedChar? at escaped
    split at escaped <;> cases escaped <;> decide
  · intro listed
    have values : ∀ escape ∈ shortEscapes, escapedChar? escape.1 = some escape.2 := by decide
    exact values (c, value) listed

theorem escapedUnit?_eq_some_iff {a b c d : Char} {piece : Piece} :
    escapedUnit? a b c d = some piece ↔
      ∃ i j k l, (a, i) ∈ hexDigits ∧ (b, j) ∈ hexDigits ∧ (c, k) ∈ hexDigits ∧ (d, l) ∈ hexDigits ∧
        piece = .ofUnit (((i * 16 + j) * 16 + k) * 16 + l) := by
  simp only [escapedUnit?, Option.bind_eq_bind, Option.bind_eq_some_iff, hexDigit?_eq_some_iff, Option.some.injEq,
    Piece.ofUnit]
  grind

theorem scanPieces_sound {read pieces : List Piece} {cs rest : List Char}
    (scanned : scanPieces read cs = some (pieces, rest)) :
    ∃ found spelling, pieces = read.reverse ++ found ∧ PiecesText found spelling ∧ cs = spelling ++ '"' :: rest := by
  fun_induction scanPieces read cs with
  | case1 | case4 | case6 | case7 => cases scanned
  | case2 read tail =>
    cases scanned
    exact ⟨[], [], by simp, .nil, rfl⟩
  | case3 read a b c d tail piece escaped ih =>
    obtain ⟨found, spelling, rfl, spells, rfl⟩ := ih scanned
    obtain ⟨i, j, k, l, first, second, third, fourth, rfl⟩ := escapedUnit?_eq_some_iff.mp escaped
    exact ⟨_ :: found, _, by simp, .cons (.unit first second third fourth) spells, rfl⟩
  | case5 read c tail _ value escaped ih =>
    obtain ⟨found, spelling, rfl, spells, rfl⟩ := ih scanned
    exact ⟨_ :: found, _, by simp, .cons (.short (escapedChar?_eq_some_iff.mp escaped)) spells, rfl⟩
  | case8 read c tail noQuote _ noEscape visible ih =>
    -- A backslash that ends the text escapes nothing, but no quote follows it either.
    have noBackslash : c ≠ '\\' := by
      rintro rfl
      cases tail with
      | nil => cases scanned
      | cons next tail => exact noEscape next tail rfl rfl
    obtain ⟨found, spelling, rfl, spells, rfl⟩ := ih scanned
    exact ⟨_ :: found, _, by simp, .cons (.plain c (Nat.not_lt.mp visible) noQuote noBackslash) spells, rfl⟩

theorem scanPieces_complete {found : List Piece} {spelling : List Char} (spells : PiecesText found spelling)
    (read : List Piece) (rest : List Char) :
    scanPieces read (spelling ++ '"' :: rest) = some (read.reverse ++ found, rest) := by
  induction spells generalizing read with
  | nil => simp [scanPieces]
  | cons first others ih =>
    cases first with
    | plain c visible noQuote noEscape => simp [scanPieces, noEscape, visible, ih]
    | @short c value listed =>
      have escaped := escapedChar?_eq_some_iff.mpr listed
      have short : c ≠ 'u' := by
        rintro rfl
        cases escaped
      simp [scanPieces, short, escaped, ih]
    | unit first second third fourth =>
      have escaped := escapedUnit?_eq_some_iff.mpr ⟨_, _, _, _, first, second, third, fourth, rfl⟩
      simp [scanPieces, escaped, ih]

theorem joinPieces?_eq_some_iff {joined text : List Char} {pieces : List Piece} :
    joinPieces? joined pieces = some text ↔ ∃ others, Joined pieces others ∧ text = joined.reverse ++ others := by
  fun_induction joinPieces? joined pieces with
  | case1 joined =>
    constructor
    · rintro ⟨⟩
      exact ⟨[], .nil, by simp⟩
    · rintro ⟨others, ⟨⟩, rfl⟩
      simp
  | case2 joined c pieces ih =>
    rw [ih]
    constructor
    · rintro ⟨others, isJoined, rfl⟩
      exact ⟨_, .char c isJoined, by simp⟩
    · rintro ⟨_, ⟨⟩, rfl⟩
      exact ⟨_, ‹_›, by simp⟩
  | case3 joined high low pieces isPair ih =>
    rw [ih]
    constructor
    · rintro ⟨others, isJoined, rfl⟩
      exact ⟨_, .pair isPair.1 isPair.2 isJoined, by simp⟩
    · rintro ⟨_, ⟨⟩, rfl⟩
      exact ⟨_, ‹_›, by simp⟩
  | case4 joined high low pieces noPair =>
    refine iff_of_false nofun ?_
    rintro ⟨_, isJoined, rfl⟩
    cases isJoined with
    | pair isHigh isLow _ => exact noPair ⟨isHigh, isLow⟩
  | case5 joined code pieces single =>
    refine iff_of_false nofun ?_
    rintro ⟨_, isJoined, rfl⟩
    cases isJoined with
    | pair => exact single _ _ rfl

theorem joined_iff {pieces : List Piece} {content : String} :
    (joinPieces? [] pieces).map String.ofList = some content ↔ Joined pieces content.toList := by
  rw [Option.map_eq_some_iff]
  constructor
  · rintro ⟨text, joins, rfl⟩
    obtain ⟨others, isJoined, rfl⟩ := joinPieces?_eq_some_iff.mp joins
    simpa using isJoined
  · intro isJoined
    exact ⟨content.toList, joinPieces?_eq_some_iff.mpr ⟨_, isJoined, by simp⟩, String.ofList_toList⟩

end Pieces

section Numbers

def Avoids (test : Char → Bool) (text : List Char) : Prop :=
  ∀ c ∈ text.head?, test c = false

theorem Avoids.mono {test weaker : Char → Bool} {text : List Char} (avoids : Avoids test text)
    (implied : ∀ c, test c = false → weaker c = false) : Avoids weaker text :=
  fun c mem => implied c (avoids c mem)

theorem avoids_cons {test : Char → Bool} {c : Char} {text : List Char} (avoids : test c = false) :
    Avoids test (c :: text) := by
  rintro _ ⟨⟩
  exact avoids

theorem IsDigits.avoids {test : Char → Bool} {digits : List Char} (all : IsDigits digits)
    (implied : ∀ c, c.isDigit = true → test c = false) (rest : List Char) : Avoids test (digits ++ rest) := by
  obtain ⟨some, isDigit⟩ := all
  cases digits with
  | nil => exact absurd rfl some
  | cons c digits => exact avoids_cons (implied c (isDigit c List.mem_cons_self))

/-- The characters that can follow the digits of a number. -/
def continues (c : Char) : Bool :=
  c.isDigit || c == '.' || c == 'e' || c == 'E'

theorem scanDigits_sound (cs : List Char) :
    (∀ c ∈ (scanDigits cs).1, c.isDigit = true) ∧ cs = (scanDigits cs).1 ++ (scanDigits cs).2 :=
  ⟨fun _ mem => List.mem_takeWhile_imp mem, List.takeWhile_append_dropWhile.symm⟩

theorem scanDigits_complete {digits rest : List Char} (all : ∀ c ∈ digits, c.isDigit = true)
    (ends : Avoids Char.isDigit rest) : scanDigits (digits ++ rest) = (digits, rest) := by
  have taken : rest.takeWhile Char.isDigit = [] ∧ rest.dropWhile Char.isDigit = rest := by
    cases rest with
    | nil => exact ⟨rfl, rfl⟩
    | cons c rest => simp [ends c rfl]
  rw [scanDigits, List.takeWhile_append_of_pos all, List.dropWhile_append_of_pos all, taken.1, taken.2,
    List.append_nil]

theorem scanMinus_sound (cs : List Char) :
    (scanMinus cs).1 ∈ [[], ['-']] ∧ cs = (scanMinus cs).1 ++ (scanMinus cs).2 := by
  unfold scanMinus
  split <;> simp

theorem scanSign_sound (cs : List Char) :
    (scanSign cs).1 ∈ [[], ['+'], ['-']] ∧ cs = (scanSign cs).1 ++ (scanSign cs).2 := by
  unfold scanSign
  split <;> simp

theorem scanInteger_sound {cs integer rest : List Char} (scanned : scanInteger cs = some (integer, rest)) :
    IntegerText integer ∧ cs = integer ++ rest := by
  unfold scanInteger at scanned
  split at scanned
  next tail =>
    cases scanned
    exact ⟨.zero, rfl⟩
  next c tail nonzero =>
    split at scanned
    next isDigit =>
      cases scanned
      obtain ⟨all, whole⟩ := scanDigits_sound tail
      refine ⟨.digits nonzero ⟨List.cons_ne_nil _ _, ?_⟩, congrArg (c :: ·) whole⟩
      simpa [isDigit] using all
    next => cases scanned
  next => cases scanned

theorem scanFraction_sound {cs fraction rest : List Char} (scanned : scanFraction cs = some (fraction, rest)) :
    FractionText fraction ∧ cs = fraction ++ rest := by
  unfold scanFraction at scanned
  split at scanned
  next tail =>
    obtain ⟨all, whole⟩ := scanDigits_sound tail
    simp only at scanned
    split at scanned
    next => cases scanned
    next some =>
      cases scanned
      exact ⟨.digits ⟨by simpa using some, all⟩, congrArg ('.' :: ·) whole⟩
  next =>
    cases scanned
    exact ⟨.none, rfl⟩

theorem scanExponent_sound {cs exponent rest : List Char} (scanned : scanExponent cs = some (exponent, rest)) :
    ExponentText exponent ∧ cs = exponent ++ rest := by
  unfold scanExponent at scanned
  split at scanned
  next c tail =>
    split at scanned
    next isMark =>
      obtain ⟨isSign, wholeSign⟩ := scanSign_sound tail
      obtain ⟨all, whole⟩ := scanDigits_sound (scanSign tail).2
      simp only at scanned
      split at scanned
      next => cases scanned
      next some =>
        cases scanned
        refine ⟨.digits (by simpa using isMark) isSign ⟨by simpa using some, all⟩, ?_⟩
        rw [List.append_assoc, ← whole, List.cons_append, ← wholeSign]
    next =>
      cases scanned
      exact ⟨.none, rfl⟩
  next =>
    cases scanned
    exact ⟨.none, rfl⟩

theorem scanNumber_sound {cs rest : List Char} {token : Token} (scanned : scanNumber cs = some (token, rest)) :
    ∃ literal, token = .number literal ∧ NumberText literal ∧ cs = literal ++ rest := by
  simp only [scanNumber, Option.bind_eq_bind, Option.bind_eq_some_iff, Option.some.injEq, Prod.mk.injEq,
    Prod.exists] at scanned
  obtain ⟨integer, afterInteger, scannedInteger, fraction, afterFraction, scannedFraction, exponent, _,
    scannedExponent, rfl, rfl⟩ := scanned
  obtain ⟨isSign, whole⟩ := scanMinus_sound cs
  obtain ⟨isInteger, wholeInteger⟩ := scanInteger_sound scannedInteger
  obtain ⟨isFraction, wholeFraction⟩ := scanFraction_sound scannedFraction
  obtain ⟨isExponent, wholeExponent⟩ := scanExponent_sound scannedExponent
  refine ⟨_, rfl, .mk isSign isInteger isFraction isExponent, ?_⟩
  rw [List.append_assoc, List.append_assoc, List.append_assoc, ← wholeExponent, ← wholeFraction, ← wholeInteger,
    ← whole]

theorem scanInteger_complete {integer rest : List Char} (isInteger : IntegerText integer)
    (ends : Avoids Char.isDigit rest) : scanInteger (integer ++ rest) = some (integer, rest) := by
  cases isInteger with
  | zero => rfl
  | digits nonzero all =>
    have others := scanDigits_complete (fun c mem => all.2 c (List.mem_cons_of_mem _ mem)) ends
    simp [scanInteger, all.2 _ List.mem_cons_self, others]

theorem scanFraction_complete {fraction rest : List Char} (isFraction : FractionText fraction)
    (ends : Avoids Char.isDigit rest) (noPoint : Avoids (· == '.') rest) :
    scanFraction (fraction ++ rest) = some (fraction, rest) := by
  cases isFraction with
  | none =>
    cases rest with
    | nil => rfl
    | cons c rest =>
      have other : c ≠ '.' := by simpa using noPoint c rfl
      simp [scanFraction, other]
  | digits all => simp [scanFraction, scanDigits_complete all.2 ends, all.1]

theorem scanSign_complete {sign rest : List Char} (isSign : sign ∈ [[], ['+'], ['-']])
    (noSign : Avoids (fun c => c == '+' || c == '-') rest) : scanSign (sign ++ rest) = (sign, rest) := by
  simp only [List.mem_cons, List.not_mem_nil, or_false] at isSign
  rcases isSign with rfl | rfl | rfl
  · cases rest with
    | nil => rfl
    | cons c rest =>
      have other : c ≠ '+' ∧ c ≠ '-' := by simpa using noSign c rfl
      simp [scanSign, other]
  · rfl
  · rfl

theorem scanExponent_complete {exponent rest : List Char} (isExponent : ExponentText exponent)
    (ends : Avoids continues rest) : scanExponent (exponent ++ rest) = some (exponent, rest) := by
  have noDigit : Avoids Char.isDigit rest := ends.mono fun c avoided => by
    simp only [continues, Bool.or_eq_false_iff] at avoided
    exact avoided.1.1.1
  cases isExponent with
  | none =>
    cases rest with
    | nil => rfl
    | cons c rest =>
      have other := ends c rfl
      simp only [continues, Bool.or_eq_false_iff] at other
      simp [scanExponent, other]
  | @digits mark sign digits isMark isSign all =>
    have noSign : Avoids (fun c => c == '+' || c == '-') (digits ++ rest) := by
      refine all.avoids (fun c isDigit => ?_) rest
      by_contra isSign
      simp only [Bool.not_eq_false, Bool.or_eq_true, beq_iff_eq] at isSign
      rcases isSign with rfl | rfl <;> cases isDigit
    have isMark : (mark == 'e' || mark == 'E') = true := by simpa using isMark
    simp [scanExponent, isMark, scanSign_complete isSign noSign, scanDigits_complete all.2 noDigit, all.1]

theorem scanMinus_complete {sign rest : List Char} (isSign : sign ∈ [[], ['-']]) (noSign : Avoids (· == '-') rest) :
    scanMinus (sign ++ rest) = (sign, rest) := by
  simp only [List.mem_cons, List.not_mem_nil, or_false] at isSign
  rcases isSign with rfl | rfl
  · cases rest with
    | nil => rfl
    | cons c rest =>
      have other : c ≠ '-' := by simpa using noSign c rfl
      simp [scanMinus, other]
  · rfl

theorem IntegerText.avoids {test : Char → Bool} {integer : List Char} (isInteger : IntegerText integer)
    (implied : ∀ c, c.isDigit = true → test c = false) (rest : List Char) : Avoids test (integer ++ rest) := by
  cases isInteger with
  | zero => exact avoids_cons (implied '0' rfl)
  | digits nonzero all => exact all.avoids implied rest

theorem ExponentText.avoids {exponent rest : List Char} (isExponent : ExponentText exponent)
    (ends : Avoids continues rest) : Avoids (fun c => c.isDigit || c == '.') (exponent ++ rest) := by
  cases isExponent with
  | none =>
    refine ends.mono fun c avoided => ?_
    simp only [continues, Bool.or_eq_false_iff] at avoided ⊢
    exact avoided.1.1
  | digits isMark =>
    refine avoids_cons ?_
    simp only [List.mem_cons, List.not_mem_nil, or_false] at isMark
    rcases isMark with rfl | rfl <;> rfl

theorem scanNumber_complete {literal rest : List Char} (isNumber : NumberText literal)
    (ends : Avoids continues rest) : scanNumber (literal ++ rest) = some (.number literal, rest) := by
  obtain ⟨isSign, isInteger, isFraction, isExponent⟩ := isNumber
  rename_i sign integer fraction exponent
  have afterFraction := isExponent.avoids ends
  have noDigit : Avoids Char.isDigit (exponent ++ rest) := afterFraction.mono fun c avoided =>
    (Bool.or_eq_false_iff.mp avoided).1
  have noPoint : Avoids (· == '.') (exponent ++ rest) := afterFraction.mono fun c avoided =>
    (Bool.or_eq_false_iff.mp avoided).2
  have afterInteger : Avoids Char.isDigit (fraction ++ (exponent ++ rest)) := by
    cases isFraction with
    | none => exact noDigit
    | digits => exact avoids_cons rfl
  have noSign : Avoids (· == '-') (integer ++ (fraction ++ (exponent ++ rest))) := by
    refine isInteger.avoids (fun c isDigit => ?_) _
    by_contra isSign
    obtain rfl : c = '-' := by simpa using isSign
    cases isDigit
  simp [scanNumber, scanMinus_complete isSign noSign, scanInteger_complete isInteger afterInteger,
    scanFraction_complete isFraction noDigit noPoint, scanExponent_complete isExponent ends]

end Numbers

section Tokens

theorem scanToken_sound {cs rest : List Char} {token : Token} (scanned : scanToken cs = some (token, rest)) :
    ∃ spelling, TokenText token spelling ∧ cs = spelling ++ rest := by
  unfold scanToken at scanned
  split at scanned
  case h_1 => cases scanned; exact ⟨_, .openObject, rfl⟩
  case h_2 => cases scanned; exact ⟨_, .closeObject, rfl⟩
  case h_3 => cases scanned; exact ⟨_, .openArray, rfl⟩
  case h_4 => cases scanned; exact ⟨_, .closeArray, rfl⟩
  case h_5 => cases scanned; exact ⟨_, .colon, rfl⟩
  case h_6 => cases scanned; exact ⟨_, .comma, rfl⟩
  case h_7 => cases scanned; exact ⟨_, .nullName, rfl⟩
  case h_8 => cases scanned; exact ⟨_, .trueName, rfl⟩
  case h_9 => cases scanned; exact ⟨_, .falseName, rfl⟩
  case h_10 tail =>
    unfold scanString at scanned
    split at scanned
    next => cases scanned
    next pieces after found =>
      cases scanned
      obtain ⟨pieces, spelling, rfl, spells, rfl⟩ := scanPieces_sound found
      refine ⟨_, .string spells fun content => ?_, by simp⟩
      exact joined_iff
  case h_11 =>
    obtain ⟨literal, rfl, isNumber, whole⟩ := scanNumber_sound scanned
    exact ⟨literal, .number isNumber, whole⟩

theorem scanToken_number {c : Char} (starts : c = '-' ∨ c.isDigit = true) (cs : List Char) :
    scanToken (c :: cs) = scanNumber (c :: cs) := by
  unfold scanToken
  split
  case h_11 => rfl
  -- No other token starts as a number does.
  all_goals
    rename_i same
    cases same
    rcases starts with same | isDigit
    · cases same
    · cases isDigit

theorem NumberText.starts {literal : List Char} (isNumber : NumberText literal) :
    ∃ c others, literal = c :: others ∧ (c = '-' ∨ c.isDigit = true) := by
  obtain ⟨isSign, isInteger, -, -⟩ := isNumber
  simp only [List.mem_cons, List.not_mem_nil, or_false] at isSign
  rcases isSign with rfl | rfl
  · cases isInteger with
    | zero => exact ⟨_, _, rfl, .inr rfl⟩
    | digits nonzero all => exact ⟨_, _, rfl, .inr (all.2 _ List.mem_cons_self)⟩
  · exact ⟨_, _, rfl, .inl rfl⟩

theorem scanToken_complete {token : Token} {spelling rest : List Char} (spells : TokenText token spelling)
    (ends : ∀ literal, token = .number literal → Avoids continues rest) :
    scanToken (spelling ++ rest) = some (token, rest) := by
  cases spells with
  | openObject | closeObject | openArray | closeArray | colon | comma | nullName | trueName | falseName => rfl
  | number isNumber =>
    obtain ⟨c, others, rfl, starts⟩ := isNumber.starts
    exact (scanToken_number starts _).trans (scanNumber_complete isNumber (ends _ rfl))
  | @string pieces spelling text spells joined =>
    have content : (joinPieces? [] pieces).map String.ofList = text :=
      Option.ext fun content => joined_iff.trans (joined content).symm
    change scanString ((spelling ++ ['"']) ++ rest) = _
    simp [scanString, scanPieces_complete spells, content]

theorem TokenText.starts {token : Token} {spelling : List Char} (spells : TokenText token spelling) :
    ∃ c others, spelling = c :: others ∧ isBlank c = false := by
  cases spells with
  | openObject | closeObject | openArray | closeArray | colon | comma | nullName | trueName | falseName | string =>
    exact ⟨_, _, rfl, rfl⟩
  | number isNumber =>
    obtain ⟨c, others, rfl, starts⟩ := isNumber.starts
    refine ⟨c, others, rfl, ?_⟩
    by_contra blank
    simp only [isBlank, Bool.not_eq_false, Bool.or_eq_true, beq_iff_eq] at blank
    rcases blank with ((rfl | rfl) | rfl) | rfl <;> revert starts <;> decide

theorem isBlank_iff {c : Char} : isBlank c = true ↔ c ∈ [' ', '\t', '\n', '\r'] := by
  simp [isBlank, or_assoc]

theorem tokensFrom_blank {c : Char} (blank : isBlank c = true) (read : List Token) (cs : List Char) :
    tokensFrom read (c :: cs) = tokensFrom read cs := by
  rw [tokensFrom, if_pos blank]

theorem tokensFrom_token {cs rest : List Char} {token : Token}
    (starts : ∃ c others, cs = c :: others ∧ isBlank c = false) (scanned : scanToken cs = some (token, rest)) (read : List Token) :
    tokensFrom read cs = tokensFrom (token :: read) rest := by
  obtain ⟨c, others, rfl, visible⟩ := starts
  rw [tokensFrom, if_neg (by simp [visible])]
  split
  next none => rw [scanned] at none; cases none
  next other found => rw [scanned] at found; cases found; rfl

theorem tokensFrom_sound {read tokens : List Token} {cs : List Char} (scanned : tokensFrom read cs = some tokens) :
    ∃ found, tokens = read.reverse ++ found ∧ Spelled found cs := by
  fun_induction tokensFrom read cs with
  | case1 read =>
    cases scanned
    exact ⟨[], by simp, .nil (by simp [IsBlank])⟩
  | case2 read c tail blank ih =>
    obtain ⟨found, rfl, spelled⟩ := ih scanned
    refine ⟨found, rfl, ?_⟩
    cases spelled with
    | nil isBlank => exact .nil (List.forall_mem_cons.mpr ⟨isBlank_iff.mp blank, isBlank⟩)
    | cons isBlank first others =>
      have blanks := List.forall_mem_cons.mpr ⟨isBlank_iff.mp blank, isBlank⟩
      exact .cons blanks first others
  | case3 => cases scanned
  | case4 read c tail visible token rest found ih =>
    obtain ⟨others, rfl, spelled⟩ := ih scanned
    obtain ⟨spelling, spells, whole⟩ := scanToken_sound found
    refine ⟨token :: others, by simp, ?_⟩
    have noBlanks : IsBlank [] := by simp [IsBlank]
    rw [whole]
    exact .cons noBlanks spells spelled

def follows : List Token :=
  [.comma, .closeArray, .closeObject]

/-- Every number among the tokens is followed by one that ends it, or by none. -/
def Delimited : List Token → Prop
  | [] => True
  | token :: tokens =>
    (∀ literal, token = .number literal → ∀ next ∈ tokens.head?, next ∈ follows) ∧ Delimited tokens

theorem Spelled.avoids {tokens : List Token} {text : List Char} (spelled : Spelled tokens text)
    (ends : ∀ next ∈ tokens.head?, next ∈ follows) : Avoids continues text := by
  have blankEnds (c : Char) (mem : c ∈ [' ', '\t', '\n', '\r']) : continues c = false := by
    simp only [List.mem_cons, List.not_mem_nil, or_false] at mem
    rcases mem with rfl | rfl | rfl | rfl <;> rfl
  cases spelled with
  | @nil blanks isBlank =>
    intro c mem
    exact blankEnds c (isBlank c (List.mem_of_mem_head? mem))
  | @cons blanks spelling text token tokens isBlank first others =>
    -- A blank ends a number too; without one the token itself has to.
    cases blanks with
    | nil =>
      have last := ends token rfl
      simp only [follows, List.mem_cons, List.not_mem_nil, or_false] at last
      rcases last with rfl | rfl | rfl <;> cases first <;> exact avoids_cons rfl
    | cons c blanks => exact avoids_cons (blankEnds c (isBlank c List.mem_cons_self))

theorem tokensFrom_complete {tokens : List Token} {text : List Char} (spelled : Spelled tokens text)
    (delimited : Delimited tokens) (read : List Token) : tokensFrom read text = some (read.reverse ++ tokens) := by
  have skip {blanks : List Char} (isBlank : IsBlank blanks) (read : List Token) (cs : List Char) :
      tokensFrom read (blanks ++ cs) = tokensFrom read cs := by
    induction blanks with
    | nil => rfl
    | cons c blanks ih =>
      obtain ⟨blank, others⟩ := List.forall_mem_cons.mp isBlank
      rw [List.cons_append, tokensFrom_blank (isBlank_iff.mpr blank), ih others]
  induction spelled generalizing read with
  | @nil blanks isBlank =>
    have skipped := skip isBlank read []
    rw [List.append_nil] at skipped
    rw [skipped, tokensFrom, List.append_nil]
  | @cons blanks spelling text token tokens isBlank first others ih =>
    have scanned := scanToken_complete first fun literal isNumber => others.avoids (delimited.1 literal isNumber)
    have starts : ∃ c others, spelling ++ text = c :: others ∧ PowerFpu.Json.isBlank c = false := by
      obtain ⟨c, rest, rfl, visible⟩ := first.starts
      exact ⟨c, rest ++ text, rfl, visible⟩
    rw [List.append_assoc, skip isBlank, tokensFrom_token starts scanned, ih delimited.2]
    simp

theorem tokens?_eq_some_iff {text : String} {tokens : List Token} (delimited : Delimited tokens) :
    tokens? text = some tokens ↔ Spelled tokens text.toList := by
  constructor
  · intro scanned
    obtain ⟨found, rfl, spelled⟩ := tokensFrom_sound scanned
    exact spelled
  · intro spelled
    exact tokensFrom_complete spelled delimited []

end Tokens

end PowerFpu.Json
