import DynamicPartitions.Parson.Parser

/-!
# The serializer of `lib/parson.c`

`json_serialize_to_buffer_r` prints a value compactly or, with `is_pretty`, over
indented lines. It fails only on a NULL value, so the recursive function is total
here and the two entry points return `none` on NULL. Names within an object are
distinct, so looking the i-th name up again finds the i-th value.
-/
namespace DynamicPartitions.Parson.Serializer

open DynamicPartitions.Parson.Value
open DynamicPartitions.Parson.Parser (nul)

/-- `append_indent`. -/
def appendIndent (level : Nat) : CString := List.replicate (4 * level) ' '

def hexDigit (n : Nat) : Char := if n < 10 then Char.ofNat (48 + n) else Char.ofNat (87 + n)

/-- One case of `json_serialize_string`. -/
def escapeChar (c : Char) : CString :=
  if c = '"' then ['\\', '"']
  else if c = '\\' then ['\\', '\\']
  else if c = '/' then ['\\', '/']
  else if c = Char.ofNat 8 then ['\\', 'b']
  else if c = Char.ofNat 12 then ['\\', 'f']
  else if c = '\n' then ['\\', 'n']
  else if c = '\r' then ['\\', 'r']
  else if c = '\t' then ['\\', 't']
  else if c.toNat < 0x20 then ['\\', 'u', '0', '0', hexDigit (c.toNat / 16), hexDigit (c.toNat % 16)]
  else [c]

def jsonSerializeString (string : CString) : CString :=
  '"' :: string.flatMap escapeChar ++ ['"']

def decimal (n : Int) : CString :=
  if n < 0 then '-' :: Nat.toDigits 10 n.natAbs else Nat.toDigits 10 n.natAbs

def intMin : Int := -2147483648
def intMax : Int := 2147483647
def uintMax : Int := 4294967295

/-- The three formats of a number: `%d`, `%u` and, out of both ranges, `%f`. -/
def serializeNumber (n : Int) : CString :=
  if intMin ≤ n ∧ n ≤ intMax then decimal n
  else if 0 ≤ n ∧ n ≤ uintMax then decimal n
  else decimal n ++ ['.', '0', '0', '0', '0', '0', '0']

def newline (isPretty : Bool) : CString := if isPretty then ['\n'] else []

def indent (isPretty : Bool) (level : Nat) : CString := if isPretty then appendIndent level else []

mutual

/-- `json_serialize_to_buffer_r`. -/
def jsonSerializeToBufferR (isPretty : Bool) (level : Nat) : JsonValue → CString
  | .array ⟨items, _⟩ =>
    ['['] ++ (if items = [] then [] else newline isPretty) ++ serializeItems isPretty level items ++
      (if items = [] then [] else indent isPretty level) ++ [']']
  | .object ⟨entries, _⟩ =>
    ['{'] ++ (if entries = [] then [] else newline isPretty) ++
      serializeEntries isPretty level entries ++
      (if entries = [] then [] else indent isPretty level) ++ ['}']
  | .string string => jsonSerializeString string
  | .boolean true => ['t', 'r', 'u', 'e']
  | .boolean false => ['f', 'a', 'l', 's', 'e']
  | .number num => serializeNumber num
  | .null => ['n', 'u', 'l', 'l']

/-- The loop over the items of an array. -/
def serializeItems (isPretty : Bool) (level : Nat) : List JsonValue → CString
  | [] => []
  | value :: rest =>
    indent isPretty (level + 1) ++ jsonSerializeToBufferR isPretty (level + 1) value ++
      (if rest = [] then [] else [',']) ++ newline isPretty ++ serializeItems isPretty level rest

/-- The loop over the names and values of an object. -/
def serializeEntries (isPretty : Bool) (level : Nat) : List (CString × JsonValue) → CString
  | [] => []
  | (key, value) :: rest =>
    indent isPretty (level + 1) ++ jsonSerializeString key ++ [':'] ++
      (if isPretty then [' '] else []) ++ jsonSerializeToBufferR isPretty (level + 1) value ++
      (if rest = [] then [] else [',']) ++ newline isPretty ++ serializeEntries isPretty level rest

end

def jsonSerializeToString (value : Option JsonValue) : Option CString :=
  value.map (jsonSerializeToBufferR false 0)

def jsonSerializeToStringPretty (value : Option JsonValue) : Option CString :=
  value.map (jsonSerializeToBufferR true 0)

end DynamicPartitions.Parson.Serializer
