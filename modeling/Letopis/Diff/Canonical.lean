import Letopis.Diff.Json
import Letopis.Encoding.Text

/-!
# The canonical encoding

`Canonicalize` encodes a JSON value with `encoding/json`, HTML escaping switched off and without
the final newline. The encoder writes the entries of a map in key order, which is the order the
entries of an object are kept in.
-/

namespace Letopis

/-- A number as `encoding/json` writes it: in exponent form below `1e-6` and from `1e21` on, and
there with a one-digit exponent where one digit is enough. -/
def Number.jsonText (n : Number) : List Char :=
  if n.mant = 0 then ['0']
  else if n.point - 1 < -6 ∨ 21 ≤ n.point - 1 then n.scientific (Nat.toDigits 10)
  else n.plain

/-- A character inside a JSON string. Control characters, quotes, backslashes and the two line
separators of JavaScript are escaped. -/
def escapeChar (c : Char) : List Char :=
  if c = '"' ∨ c = '\\' then ['\\', c]
  else if c = '\x08' then ['\\', 'b']
  else if c = '\x0c' then ['\\', 'f']
  else if c = '\n' then ['\\', 'n']
  else if c = '\r' then ['\\', 'r']
  else if c = '\t' then ['\\', 't']
  else if c.toNat < 0x20 then
    ['\\', 'u', '0', '0', (c.toNat / 16).digitChar, (c.toNat % 16).digitChar]
  else if c.toNat = 0x2028 ∨ c.toNat = 0x2029 then
    ['\\', 'u', '2', '0', '2', (c.toNat % 16).digitChar]
  else [c]

/-- A string as JSON text. -/
def quote (s : String) : List Char := '"' :: (s.toList.flatMap escapeChar ++ ['"'])

namespace Json

mutual

/-- The JSON text of a value. -/
def encode : Json → List Char
  | .null => ['n', 'u', 'l', 'l']
  | .bool true => ['t', 'r', 'u', 'e']
  | .bool false => ['f', 'a', 'l', 's', 'e']
  | .num n => n.jsonText
  | .str s => quote s
  | .arr xs => '[' :: (encodeList xs ++ [']'])
  | .obj kvs => '\x7b' :: (encodeFields kvs ++ ['\x7d'])

/-- The elements of an array, separated by commas. -/
def encodeList : List Json → List Char
  | [] => []
  | [x] => x.encode
  | x :: xs => x.encode ++ ',' :: encodeList xs

/-- The entries of an object, separated by commas. -/
def encodeFields : Fields → List Char
  | [] => []
  | [(k, v)] => quote k ++ ':' :: v.encode
  | (k, v) :: kvs => quote k ++ ':' :: (v.encode ++ ',' :: encodeFields kvs)

end

end Json

/-- `Canonicalize`. No JSON value makes the encoder fail. -/
def canonicalize (v : Json) : List UInt8 := Text.bytes (.ofList v.encode)

example : canonicalize (.obj [("a", .arr [.null, .bool true, .num ⟨-15, -1, by decide⟩]),
    ("b", .obj []), ("c", .str "x\n<\u2028>"), ("d", .num ⟨1, -7, by decide⟩)]) =
    Text.bytes
      "\x7b\"a\":[null,true,-1.5],\"b\":\x7b\x7d,\"c\":\"x\\n<\\u2028>\",\"d\":1e-7\x7d" := by
  decide +kernel

end Letopis
