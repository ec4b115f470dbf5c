/-! The tokens of a JSON text.

Blanks separate tokens and are dropped. A string may hold escaped surrogates: a
high one followed by a low one stands for one character, and a string with any
other surrogate stands for no text. -/

set_option autoImplicit false

namespace PowerFpu.Json

inductive Token where
  | openObject
  | closeObject
  | openArray
  | closeArray
  | colon
  | comma
  | null
  | bool (value : Bool)
  | number (literal : List Char)
  | string (text : Option String)
  deriving DecidableEq, Repr

/-- A character of a string, or the code of an escaped surrogate. -/
inductive Piece where
  | char (value : Char)
  | surrogate (code : Nat)
  deriving DecidableEq, Repr

def isBlank (c : Char) : Bool :=
  c == ' ' || c == '\t' || c == '\n' || c == '\r'

def hexDigit? (c : Char) : Option Nat :=
  if '0' ≤ c ∧ c ≤ '9' then some (c.toNat - '0'.toNat)
  else if 'a' ≤ c ∧ c ≤ 'f' then some (c.toNat - 'a'.toNat + 10)
  else if 'A' ≤ c ∧ c ≤ 'F' then some (c.toNat - 'A'.toNat + 10)
  else none

def escapedUnit? (a b c d : Char) : Option Piece := do
  let code := (((← hexDigit? a) * 16 + (← hexDigit? b)) * 16 + (← hexDigit? c)) * 16 + (← hexDigit? d)
  some (if 0xD800 ≤ code ∧ code ≤ 0xDFFF then .surrogate code else .char (.ofNat code))

def escapedChar? : Char → Option Char
  | '"' => some '"'
  | '\\' => some '\\'
  | '/' => some '/'
  | 'b' => some '\x08'
  | 'f' => some '\x0c'
  | 'n' => some '\n'
  | 'r' => some '\r'
  | 't' => some '\t'
  | _ => none

/-- Reads up to the closing quote; control characters must be escaped. -/
def scanPieces (read : List Piece) : List Char → Option (List Piece × List Char)
  | [] => none
  | '"' :: rest => some (read.reverse, rest)
  | '\\' :: 'u' :: a :: b :: c :: d :: rest =>
    match escapedUnit? a b c d with
    | some piece => scanPieces (piece :: read) rest
    | none => none
  | '\\' :: c :: rest =>
    match escapedChar? c with
    | some value => scanPieces (.char value :: read) rest
    | none => none
  | c :: rest => if c.toNat < 0x20 then none else scanPieces (.char c :: read) rest

/-- The characters of a string whose surrogates all come in pairs. -/
def joinPieces? (joined : List Char) : List Piece → Option (List Char)
  | [] => some joined.reverse
  | .char c :: rest => joinPieces? (c :: joined) rest
  | .surrogate high :: .surrogate low :: rest =>
    if high < 0xDC00 ∧ 0xDC00 ≤ low then
      joinPieces? (.ofNat (0x10000 + (high - 0xD800) * 0x400 + (low - 0xDC00)) :: joined) rest
    else none
  | .surrogate _ :: _ => none

def scanString (cs : List Char) : Option (Token × List Char) :=
  match scanPieces [] cs with
  | none => none
  | some (pieces, rest) => some (.string ((joinPieces? [] pieces).map String.ofList), rest)

/-! Numbers: an integer part without needless zeros, then perhaps a fraction and an exponent. -/

def scanDigits (cs : List Char) : List Char × List Char :=
  (cs.takeWhile Char.isDigit, cs.dropWhile Char.isDigit)

def scanInteger : List Char → Option (List Char × List Char)
  | '0' :: rest => some (['0'], rest)
  | c :: rest => if c.isDigit then some (c :: (scanDigits rest).1, (scanDigits rest).2) else none
  | [] => none

def scanFraction : List Char → Option (List Char × List Char)
  | '.' :: rest =>
    let (digits, rest) := scanDigits rest
    if digits.isEmpty then none else some ('.' :: digits, rest)
  | cs => some ([], cs)

def scanSign : List Char → List Char × List Char
  | '+' :: rest => (['+'], rest)
  | '-' :: rest => (['-'], rest)
  | cs => ([], cs)

def scanExponent : List Char → Option (List Char × List Char)
  | c :: rest =>
    if c == 'e' || c == 'E' then
      let (sign, rest) := scanSign rest
      let (digits, rest) := scanDigits rest
      if digits.isEmpty then none else some (c :: sign ++ digits, rest)
    else some ([], c :: rest)
  | [] => some ([], [])

def scanMinus : List Char → List Char × List Char
  | '-' :: rest => (['-'], rest)
  | cs => ([], cs)

def scanNumber (cs : List Char) : Option (Token × List Char) := do
  let (minus, rest) := scanMinus cs
  let (integer, rest) ← scanInteger rest
  let (fraction, rest) ← scanFraction rest
  let (exponent, rest) ← scanExponent rest
  some (.number (minus ++ integer ++ fraction ++ exponent), rest)

def scanToken : List Char → Option (Token × List Char)
  | '{' :: rest => some (.openObject, rest)
  | '}' :: rest => some (.closeObject, rest)
  | '[' :: rest => some (.openArray, rest)
  | ']' :: rest => some (.closeArray, rest)
  | ':' :: rest => some (.colon, rest)
  | ',' :: rest => some (.comma, rest)
  | 'n' :: 'u' :: 'l' :: 'l' :: rest => some (.null, rest)
  | 't' :: 'r' :: 'u' :: 'e' :: rest => some (.bool true, rest)
  | 'f' :: 'a' :: 'l' :: 's' :: 'e' :: rest => some (.bool false, rest)
  | '"' :: rest => scanString rest
  | cs => scanNumber cs

/-! Every token takes at least one character. -/

theorem scanPieces_length {read pieces : List Piece} {cs rest : List Char}
    (scanned : scanPieces read cs = some (pieces, rest)) : rest.length < cs.length := by
  fun_induction scanPieces read cs with
  | case1 => simp at scanned
  | case2 read tail =>
    simp only [Option.some.injEq, Prod.mk.injEq] at scanned
    simp [scanned.2]
  | case3 read a b c d tail piece found ih =>
    have := ih scanned
    simp only [List.length_cons]
    omega
  | case4 => simp at scanned
  | case5 read c tail _ value found ih =>
    have := ih scanned
    simp only [List.length_cons]
    omega
  | case6 => simp at scanned
  | case7 => simp at scanned
  | case8 read c tail _ _ _ _ ih =>
    have := ih scanned
    simp only [List.length_cons]
    omega

theorem scanString_length {cs rest : List Char} {token : Token}
    (scanned : scanString cs = some (token, rest)) : rest.length < cs.length := by
  unfold scanString at scanned
  split at scanned
  · simp at scanned
  · rename_i pieces tail found
    simp only [Option.some.injEq, Prod.mk.injEq] at scanned
    exact scanned.2 ▸ scanPieces_length found

theorem scanDigits_length (cs : List Char) : (scanDigits cs).2.length ≤ cs.length :=
  (List.dropWhile_sublist _).length_le

theorem scanMinus_length (cs : List Char) : (scanMinus cs).2.length ≤ cs.length := by
  unfold scanMinus
  split <;> simp

theorem scanSign_length (cs : List Char) : (scanSign cs).2.length ≤ cs.length := by
  unfold scanSign
  split <;> simp

theorem scanInteger_length {cs digits rest : List Char}
    (scanned : scanInteger cs = some (digits, rest)) : rest.length < cs.length := by
  unfold scanInteger at scanned
  split at scanned
  · simp only [Option.some.injEq, Prod.mk.injEq] at scanned
    simp [scanned.2]
  · rename_i c tail _
    split at scanned
    · simp only [Option.some.injEq, Prod.mk.injEq] at scanned
      have := scanDigits_length tail
      simp only [← scanned.2, List.length_cons]
      omega
    · simp at scanned
  · simp at scanned

theorem scanFraction_length {cs digits rest : List Char}
    (scanned : scanFraction cs = some (digits, rest)) : rest.length ≤ cs.length := by
  unfold scanFraction at scanned
  split at scanned
  · rename_i tail
    simp only at scanned
    split at scanned
    · simp at scanned
    · simp only [Option.some.injEq, Prod.mk.injEq] at scanned
      have := scanDigits_length tail
      simp only [← scanned.2, List.length_cons]
      omega
  · simp only [Option.some.injEq, Prod.mk.injEq] at scanned
    simp [scanned.2]

theorem scanExponent_length {cs digits rest : List Char}
    (scanned : scanExponent cs = some (digits, rest)) : rest.length ≤ cs.length := by
  unfold scanExponent at scanned
  split at scanned
  · rename_i c tail
    split at scanned
    · simp only at scanned
      split at scanned
      · simp at scanned
      · simp only [Option.some.injEq, Prod.mk.injEq] at scanned
        have signed := scanSign_length tail
        have := scanDigits_length (scanSign tail).2
        simp only [← scanned.2, List.length_cons]
        omega
    · simp only [Option.some.injEq, Prod.mk.injEq] at scanned
      simp [← scanned.2]
  · simp only [Option.some.injEq, Prod.mk.injEq] at scanned
    simp [← scanned.2]

theorem scanNumber_length {cs rest : List Char} {token : Token}
    (scanned : scanNumber cs = some (token, rest)) : rest.length < cs.length := by
  simp only [scanNumber, Option.bind_eq_bind, Option.bind_eq_some_iff, Option.some.injEq,
    Prod.mk.injEq, Prod.exists] at scanned
  obtain ⟨_, _, integer, _, _, fraction, _, _, exponent, _, rfl⟩ := scanned
  have := scanMinus_length cs
  have := scanInteger_length integer
  have := scanFraction_length fraction
  have := scanExponent_length exponent
  omega

theorem scanToken_length {cs rest : List Char} {token : Token}
    (scanned : scanToken cs = some (token, rest)) : rest.length < cs.length := by
  unfold scanToken at scanned
  split at scanned
  case h_10 tail =>
    have := scanString_length scanned
    simp only [List.length_cons]
    omega
  case h_11 => exact scanNumber_length scanned
  all_goals
    simp only [Option.some.injEq, Prod.mk.injEq] at scanned
    simp only [← scanned.2, List.length_cons]
    omega

def tokensFrom (read : List Token) (cs : List Char) : Option (List Token) :=
  match cs with
  | [] => some read.reverse
  | c :: tail =>
    if isBlank c then tokensFrom read tail
    else
      match _scanned : scanToken (c :: tail) with
      | none => none
      | some (token, rest) => tokensFrom (token :: read) rest
termination_by cs.length
decreasing_by
  · simp
  · exact scanToken_length _scanned

def tokens? (text : String) : Option (List Token) :=
  tokensFrom [] text.toList

/-! JSON values read from tokens.

The reader keeps the arrays and objects it is inside on a stack, so a value may
be nested to any depth. -/

inductive Value where
  | null
  | bool (value : Bool)
  | number (literal : List Char)
  | string (text : Option String)
  | array (items : List Value)
  | object (members : List (Option String × Value))

/-- An unfinished array or object: what it holds so far, the latest first. -/
inductive Frame where
  | array (items : List Value)
  | object (members : List (Option String × Value))
  | member (key : Option String) (members : List (Option String × Value))

inductive Expectation where
  | value
  | valueOrEnd
  | key
  | keyOrEnd
  | colon (key : Option String)
  | separator (value : Value)

structure Reading where
  expectation : Expectation
  frames : List Frame

namespace Reading

def start : Reading :=
  ⟨.value, []⟩

def openValue (frames : List Frame) : Token → Option Reading
  | .openObject => some ⟨.keyOrEnd, .object [] :: frames⟩
  | .openArray => some ⟨.valueOrEnd, .array [] :: frames⟩
  | .null => some ⟨.separator .null, frames⟩
  | .bool value => some ⟨.separator (.bool value), frames⟩
  | .number literal => some ⟨.separator (.number literal), frames⟩
  | .string text => some ⟨.separator (.string text), frames⟩
  | .closeObject | .closeArray | .colon | .comma => none

def afterValue (value : Value) : List Frame → Token → Option Reading
  | .array items :: frames, .comma => some ⟨.value, .array (value :: items) :: frames⟩
  | .array items :: frames, .closeArray => some ⟨.separator (.array (value :: items).reverse), frames⟩
  | .member key members :: frames, .comma => some ⟨.key, .object ((key, value) :: members) :: frames⟩
  | .member key members :: frames, .closeObject =>
    some ⟨.separator (.object ((key, value) :: members).reverse), frames⟩
  | _, _ => none

def step (reading : Reading) (token : Token) : Option Reading :=
  match reading.expectation, reading.frames, token with
  | .value, frames, token => openValue frames token
  | .valueOrEnd, .array [] :: frames, .closeArray => some ⟨.separator (.array []), frames⟩
  | .valueOrEnd, frames, token => openValue frames token
  | .key, frames, .string key => some ⟨.colon key, frames⟩
  | .keyOrEnd, .object [] :: frames, .closeObject => some ⟨.separator (.object []), frames⟩
  | .keyOrEnd, frames, .string key => some ⟨.colon key, frames⟩
  | .colon key, .object members :: frames, .colon => some ⟨.value, .member key members :: frames⟩
  | .separator value, frames, token => afterValue value frames token
  | _, _, _ => none

def finish? : Reading → Option Value
  | ⟨.separator value, []⟩ => some value
  | _ => none

end Reading

def Value.ofTokens? (tokens : List Token) : Option Value :=
  (tokens.foldlM Reading.step Reading.start).bind Reading.finish?

def Value.parse? (text : String) : Option Value :=
  (tokens? text).bind ofTokens?

/-! Reading records, numbers and names from JSON values.

A record is an object with optional members, or an array of the first members in
order. Members of other names are ignored; a known one may stand once only. -/

namespace Value

def hasDuplicates : List String → Bool
  | [] => false
  | name :: rest => rest.contains name || hasDuplicates rest

def record? (names : List String) : Value → Option (List (String × Value))
  | .object members => do
    -- A key with a lone surrogate is no name at all.
    let named ← members.mapM fun (key, value) => key.map fun name => (name, value)
    let known := named.filter fun (name, _) => names.contains name
    if hasDuplicates (known.map (·.1)) then none else some known
  | .array items => if items.length ≤ names.length then some (names.zip items) else none
  | _ => none

/-- A member of a record, or its default when it is left out. -/
def member {α : Type} (record : List (String × Value)) (name : String) (read : Value → Option α)
    (default : α) : Option α :=
  match record.lookup name with
  | some value => read value
  | none => some default

def bool? : Value → Option Bool
  | .bool value => some value
  | _ => none

/-- A 32-bit word: an integer literal without a sign, a point or an exponent. -/
def word? : Value → Option (BitVec 32)
  | .number literal =>
    let n := literal.foldl (fun n c => n * 10 + (c.toNat - '0'.toNat)) 0
    if literal.all Char.isDigit && n < 0x100000000 then some (.ofNat 32 n) else none
  | _ => none

/-- One of some names: a string, or an object whose one member is null. -/
def choice? {α : Type} (choices : List (String × α)) : Value → Option α
  | .string (some name) => choices.lookup name
  | .object [(some name, .null)] => choices.lookup name
  | _ => none

end Value

end PowerFpu.Json
