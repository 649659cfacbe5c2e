import DynamicPartitions.Parson.Value

/-!
# The parser of `lib/parson.c`

Each function takes the text from the current position on and returns what it
built with the text left over, or `none` where the source returns NULL. The end of
the text is the terminating zero. Nesting is limited by the source itself, so
`parseValue` recurses on the nesting still allowed; the two container loops take
the length of the text as fuel, each round eating at least a comma.
-/
namespace DynamicPartitions.Parson.Parser

open DynamicPartitions.Parson.Value

/-- The character of zero that ends a C string. -/
def nul : Char := Char.ofNat 0

def isspace (c : Char) : Bool := c == ' ' || (9 ≤ c.toNat && c.toNat ≤ 13)

/-- `SKIP_WHITESPACES`. -/
def skipWhitespaces (string : CString) : CString := string.dropWhile isspace

/-! ## Strings -/

def hexCharToInt (c : Char) : Option Nat :=
  if '0' ≤ c ∧ c ≤ '9' then some (c.toNat - '0'.toNat)
  else if 'a' ≤ c ∧ c ≤ 'f' then some (c.toNat - 'a'.toNat + 10)
  else if 'A' ≤ c ∧ c ≤ 'F' then some (c.toNat - 'A'.toNat + 10)
  else none

def parseUtf16Hex : CString → Option (Nat × CString)
  | c1 :: c2 :: c3 :: c4 :: rest => do
    let x1 ← hexCharToInt c1
    let x2 ← hexCharToInt c2
    let x3 ← hexCharToInt c3
    let x4 ← hexCharToInt c4
    some (x1 * 4096 + x2 * 256 + x3 * 16 + x4, rest)
  | _ => none

/-- `parse_utf16`, from behind the letter u: the bytes of one code point. -/
def parseUtf16 (unprocessed : CString) : Option (CString × CString) := do
  let (cp, rest) ← parseUtf16Hex unprocessed
  if cp < 0x80 then some ([Char.ofNat cp], rest)
  else if cp < 0x800 then
    some ([Char.ofNat (0xC0 + cp / 64 % 32), Char.ofNat (0x80 + cp % 64)], rest)
  else if cp < 0xD800 ∨ cp > 0xDFFF then
    some ([Char.ofNat (0xE0 + cp / 4096 % 16), Char.ofNat (0x80 + cp / 64 % 64),
      Char.ofNat (0x80 + cp % 64)], rest)
  else if cp ≤ 0xDBFF then
    match rest with
    | '\\' :: 'u' :: rest => do
      let (trail, rest) ← parseUtf16Hex rest
      if trail < 0xDC00 ∨ trail > 0xDFFF then none
      else
        let cp := (cp - 0xD800) * 1024 + (trail - 0xDC00) + 0x10000
        some ([Char.ofNat (0xF0 + cp / 262144 % 8), Char.ofNat (0x80 + cp / 4096 % 64),
          Char.ofNat (0x80 + cp / 64 % 64), Char.ofNat (0x80 + cp % 64)], rest)
    | _ => none
  else none

/-- The one-letter escapes of `process_string`. -/
def simpleEscape (c : Char) : Option Char :=
  match c with
  | '"' => some '"'
  | '\\' => some '\\'
  | '/' => some '/'
  | 'b' => some (Char.ofNat 8)
  | 'f' => some (Char.ofNat 12)
  | 'n' => some '\n'
  | 'r' => some '\r'
  | 't' => some '\t'
  | _ => none

def processStringLoop : Nat → CString → Option CString
  | _, [] => some []
  | 0, _ :: _ => none
  | fuel + 1, c :: rest =>
    if c = '\\' then
      match rest with
      | [] => none
      | escape :: rest =>
        if escape = 'u' then do
          let (bytes, rest) ← parseUtf16 rest
          let output ← processStringLoop fuel rest
          some (bytes ++ output)
        else do
          let byte ← simpleEscape escape
          let output ← processStringLoop fuel rest
          some (byte :: output)
    else if c.toNat < 0x20 then none
    else do
      let output ← processStringLoop fuel rest
      some (c :: output)

/-- `process_string` on what stands between the quotes. The result is a C string:
it ends at the first zero an escape wrote. -/
def processString (input : CString) : Option CString :=
  (processStringLoop input.length input).map fun output => output.takeWhile (· ≠ nul)

/-- The loop of `skip_quotes`: what stands before the closing quote, and the rest. -/
def skipQuotesLoop : CString → Option (CString × CString)
  | [] => none
  | c :: rest =>
    if c = '"' then some ([], rest)
    else if c = '\\' then
      match rest with
      | [] => none
      | escape :: rest => do
        let (inner, rest) ← skipQuotesLoop rest
        some (c :: escape :: inner, rest)
    else do
      let (inner, rest) ← skipQuotesLoop rest
      some (c :: inner, rest)

def skipQuotes : CString → Option (CString × CString)
  | '"' :: rest => skipQuotesLoop rest
  | _ => none

def getQuotedString (string : CString) : Option (CString × CString) := do
  let (input, rest) ← skipQuotes string
  let output ← processString input
  some (output, rest)

/-! ## Scalars -/

def parseStringValue (string : CString) : Option (JsonValue × CString) := do
  let (newString, rest) ← getQuotedString string
  some (.string newString, rest)

def parseBooleanValue (string : CString) : Option (JsonValue × CString) :=
  if ['t', 'r', 'u', 'e'] <+: string then some (.boolean true, string.drop 4)
  else if ['f', 'a', 'l', 's', 'e'] <+: string then some (.boolean false, string.drop 5)
  else none

def parseNullValue (string : CString) : Option (JsonValue × CString) :=
  if ['n', 'u', 'l', 'l'] <+: string then some (.null, string.drop 4) else none

/-- What `strtod` finds behind the digits of the integer part. A fraction of zeros
changes nothing; any other fraction, an exponent or a hexadecimal spelling has no
counterpart among the integers and is refused. -/
def strtodTail (value : Int) (string : CString) : Option (Int × CString) :=
  let rest := match string with
    | '.' :: fraction => if (fraction.takeWhile Char.isDigit).all (· == '0') then
        some (fraction.dropWhile Char.isDigit) else none
    | _ => some string
  match rest with
  | some (c :: rest) => if c ∈ ['e', 'E', 'x', 'X'] then none else some (value, c :: rest)
  | some [] => some (value, [])
  | none => none

/-- `strtod` on integers: the value and the text behind it. A sign without digits
converts nothing. -/
def strtod (string : CString) : Option (Int × CString) :=
  let (negative, body) := match string with
    | '-' :: rest => (true, rest)
    | _ => (false, string)
  let digits := body.takeWhile Char.isDigit
  if digits = [] then
    match body with
    | c :: _ => if c ∈ ['.', 'i', 'I', 'n', 'N'] then none else some (0, string)
    | [] => some (0, string)
  else
    let magnitude : Int := Nat.ofDigitChars 10 digits 0
    strtodTail (if negative then -magnitude else magnitude) (body.dropWhile Char.isDigit)

/-- `is_decimal` on the text that was converted. -/
def isDecimal (string : CString) : Bool :=
  (match string with
    | '0' :: c :: _ => c == '.'
    | '-' :: '0' :: c :: _ => c == '.'
    | _ => true) &&
  string.all fun c => c != 'x' && c != 'X'

def parseNumberValue (string : CString) : Option (JsonValue × CString) := do
  let (number, rest) ← strtod string
  if isDecimal (string.take (string.length - rest.length)) then some (.number number, rest)
  else none

/-! ## Containers -/

/-- The loop of `parse_object_value`, for a given parser of the members. -/
def parseObjectLoop (parseMember : CString → Option (JsonValue × CString)) :
    Nat → JsonObject JsonValue → CString → Option (JsonObject JsonValue × CString)
  | _, outputObject, [] => some (outputObject, [])
  | 0, _, _ :: _ => none
  | fuel + 1, outputObject, c :: text => do
    let (newKey, string) ← getQuotedString (c :: text)
    match skipWhitespaces string with
    | ':' :: string => do
      let (newValue, string) ← parseMember string
      match jsonObjectAdd outputObject newKey newValue with
      | (_, .failure) => none
      | (outputObject, .success) =>
        match skipWhitespaces string with
        | ',' :: string => parseObjectLoop parseMember fuel outputObject (skipWhitespaces string)
        | string => some (outputObject, string)
    | _ => none

/-- `parse_object_value` from behind the opening brace. -/
def parseObjectValue (parseMember : CString → Option (JsonValue × CString)) (string : CString) :
    Option (JsonValue × CString) :=
  match skipWhitespaces string with
  | '}' :: rest => some (.object jsonObjectInit, rest)
  | string => do
    let (outputObject, string) ← parseObjectLoop parseMember string.length jsonObjectInit string
    match skipWhitespaces string with
    | '}' :: rest =>
      -- trim object after parsing is over
      match jsonObjectResize outputObject (jsonObjectGetCount outputObject) with
      | (_, .failure) => none
      | (outputObject, .success) => some (.object outputObject, rest)
    | _ => none

/-- The loop of `parse_array_value`, for a given parser of the elements. -/
def parseArrayLoop (parseElement : CString → Option (JsonValue × CString)) :
    Nat → JsonArray JsonValue → CString → Option (JsonArray JsonValue × CString)
  | _, outputArray, [] => some (outputArray, [])
  | 0, _, _ :: _ => none
  | fuel + 1, outputArray, c :: text => do
    let (newArrayValue, string) ← parseElement (c :: text)
    match jsonArrayAdd outputArray newArrayValue with
    | (_, .failure) => none
    | (outputArray, .success) =>
      match skipWhitespaces string with
      | ',' :: string => parseArrayLoop parseElement fuel outputArray (skipWhitespaces string)
      | string => some (outputArray, string)

/-- `parse_array_value` from behind the opening bracket. -/
def parseArrayValue (parseElement : CString → Option (JsonValue × CString)) (string : CString) :
    Option (JsonValue × CString) :=
  match skipWhitespaces string with
  | ']' :: rest => some (.array ⟨[], 0⟩, rest)
  | string => do
    let (outputArray, string) ← parseArrayLoop parseElement string.length ⟨[], 0⟩ string
    match skipWhitespaces string with
    | ']' :: rest =>
      -- trim array after parsing is over
      match jsonArrayResize outputArray (jsonArrayGetCount outputArray) with
      | (_, .failure) => none
      | (outputArray, .success) => some (.array outputArray, rest)
    | _ => none

/-- `parse_value`; the first argument is how many more nested calls `MAX_NESTING`
lets through. -/
def parseValue : Nat → CString → Option (JsonValue × CString)
  | 0, _ => none
  | depth + 1, string =>
    match skipWhitespaces string with
    | [] => none
    | c :: rest =>
      if c = '{' then parseObjectValue (fun string => parseValue depth string) rest
      else if c = '[' then parseArrayValue (fun string => parseValue depth string) rest
      else if c = '"' then parseStringValue (c :: rest)
      else if c = 'f' ∨ c = 't' then parseBooleanValue (c :: rest)
      else if c = '-' ∨ c.isDigit then parseNumberValue (c :: rest)
      else if c = 'n' then parseNullValue (c :: rest)
      else none

/-- The UTF-8 byte order mark `json_parse_string` skips. -/
def byteOrderMark : CString := [Char.ofNat 0xEF, Char.ofNat 0xBB, Char.ofNat 0xBF]

/-- `json_parse_string`: what follows the first value is not looked at. -/
def jsonParseString (string : CString) : Option JsonValue :=
  let string := if byteOrderMark <+: string then string.drop 3 else string
  (parseValue (maxNesting + 1) string).map Prod.fst

end DynamicPartitions.Parson.Parser
