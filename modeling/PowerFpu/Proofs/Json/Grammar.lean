import PowerFpu.Json

/-! The grammar of JSON.

A text spells a row of tokens with blanks between them, and a value is written as one row of
tokens. What a text denotes is said without reading it: a value is denoted by each text that
spells its tokens. -/

set_option autoImplicit false

namespace PowerFpu.Json

/-! Strings. A piece stands for itself, or it is escaped by a letter or by its number. -/

def hexDigits : List (Char × Nat) :=
  "0123456789".toList.zipIdx ++ "abcdef".toList.zipIdx 10 ++ "ABCDEF".toList.zipIdx 10

def shortEscapes : List (Char × Char) :=
  [('"', '"'), ('\\', '\\'), ('/', '/'), ('b', '\x08'), ('f', '\x0c'), ('n', '\n'), ('r', '\r'), ('t', '\t')]

/-- What a number of four digits stands for. The surrogates are no characters on their own. -/
def Piece.ofUnit (code : Nat) : Piece :=
  if 0xD800 ≤ code ∧ code ≤ 0xDFFF then .surrogate code else .char (.ofNat code)

inductive PieceText : Piece → List Char → Prop where
  | plain (c : Char) (visible : 0x20 ≤ c.toNat) (noQuote : c ≠ '"') (noEscape : c ≠ '\\') : PieceText (.char c) [c]
  | short {c value : Char} (listed : (c, value) ∈ shortEscapes) : PieceText (.char value) ['\\', c]
  | unit {a b c d : Char} {i j k l : Nat} (first : (a, i) ∈ hexDigits) (second : (b, j) ∈ hexDigits)
      (third : (c, k) ∈ hexDigits) (fourth : (d, l) ∈ hexDigits) :
      PieceText (.ofUnit (((i * 16 + j) * 16 + k) * 16 + l)) ['\\', 'u', a, b, c, d]

inductive PiecesText : List Piece → List Char → Prop where
  | nil : PiecesText [] []
  | cons {piece : Piece} {pieces : List Piece} {spelling text : List Char} (first : PieceText piece spelling)
      (others : PiecesText pieces text) : PiecesText (piece :: pieces) (spelling ++ text)

/-- The characters of a string. A surrogate is part of one only in a pair. -/
inductive Joined : List Piece → List Char → Prop where
  | nil : Joined [] []
  | char (c : Char) {pieces : List Piece} {text : List Char} (others : Joined pieces text) :
      Joined (.char c :: pieces) (c :: text)
  | pair {high low : Nat} (isHigh : high < 0xDC00) (isLow : 0xDC00 ≤ low) {pieces : List Piece} {text : List Char}
      (others : Joined pieces text) :
      Joined (.surrogate high :: .surrogate low :: pieces)
        (.ofNat (0x10000 + (high - 0xD800) * 0x400 + (low - 0xDC00)) :: text)

/-! Numbers: a sign or none, an integer without needless zeros, a fraction or none, and an
exponent or none. -/

def IsDigits (digits : List Char) : Prop :=
  digits ≠ [] ∧ ∀ c ∈ digits, c.isDigit = true

inductive IntegerText : List Char → Prop where
  | zero : IntegerText ['0']
  | digits {c : Char} {others : List Char} (nonzero : c ≠ '0') (all : IsDigits (c :: others)) :
      IntegerText (c :: others)

inductive FractionText : List Char → Prop where
  | none : FractionText []
  | digits {digits : List Char} (all : IsDigits digits) : FractionText ('.' :: digits)

inductive ExponentText : List Char → Prop where
  | none : ExponentText []
  | digits {mark : Char} {sign digits : List Char} (isMark : mark ∈ ['e', 'E'])
      (isSign : sign ∈ [[], ['+'], ['-']]) (all : IsDigits digits) : ExponentText (mark :: sign ++ digits)

inductive NumberText : List Char → Prop where
  | mk {sign integer fraction exponent : List Char} (isSign : sign ∈ [[], ['-']]) (isInteger : IntegerText integer)
      (isFraction : FractionText fraction) (isExponent : ExponentText exponent) :
      NumberText (sign ++ integer ++ fraction ++ exponent)

inductive TokenText : Token → List Char → Prop where
  | openObject : TokenText .openObject ['\x7b']
  | closeObject : TokenText .closeObject ['\x7d']
  | openArray : TokenText .openArray ['[']
  | closeArray : TokenText .closeArray [']']
  | colon : TokenText .colon [':']
  | comma : TokenText .comma [',']
  | nullName : TokenText .null "null".toList
  | trueName : TokenText (.bool true) "true".toList
  | falseName : TokenText (.bool false) "false".toList
  | number {literal : List Char} (isNumber : NumberText literal) : TokenText (.number literal) literal
  | string {pieces : List Piece} {spelling : List Char} {text : Option String} (spells : PiecesText pieces spelling)
      (joined : ∀ content, text = some content ↔ Joined pieces content.toList) :
      TokenText (.string text) ('"' :: spelling ++ ['"'])

def IsBlank (text : List Char) : Prop :=
  ∀ c ∈ text, c ∈ [' ', '\t', '\n', '\r']

inductive Spelled : List Token → List Char → Prop where
  | nil {blanks : List Char} (isBlank : IsBlank blanks) : Spelled [] blanks
  | cons {blanks spelling text : List Char} {token : Token} {tokens : List Token} (isBlank : IsBlank blanks)
      (first : TokenText token spelling) (others : Spelled tokens text) :
      Spelled (token :: tokens) (blanks ++ spelling ++ text)

def separated (rows : List (List Token)) : List Token :=
  [Token.comma].intercalate rows

namespace Value

def tokens : Value → List Token
  | .null => [.null]
  | .bool value => [.bool value]
  | .number literal => [.number literal]
  | .string text => [.string text]
  | .array items => .openArray :: separated (items.map fun item => item.tokens) ++ [.closeArray]
  | .object members =>
    .openObject :: separated (members.map fun member => .string member.1 :: .colon :: member.2.tokens) ++ [.closeObject]
termination_by value => sizeOf value
decreasing_by
  · decreasing_tactic
  · rename_i mem
    have inside := List.sizeOf_lt_of_mem mem
    have outside : sizeOf member = 1 + sizeOf member.1 + sizeOf member.2 := by cases member; rfl
    simp only [object.sizeOf_spec]
    omega

end Value

/-- The text is the value written in JSON. -/
def Denotes (text : String) (value : Value) : Prop :=
  Spelled value.tokens text.toList

end PowerFpu.Json
