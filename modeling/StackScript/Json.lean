/-! # JSON

JSON values with object members in the order written, a reader for JSON text and a compact
writer. Numbers are decimals `mantissa · 10^exponent`, so integers of any size read back
exactly. The reader takes whitespace between tokens, the escapes of the standard (a surrogate
pair in `\u` escapes makes one character) and nothing else: no trailing commas, no comments.
-/

namespace StackScript

/-- A JSON value. -/
inductive Json where
  | null
  | bool (b : Bool)
  | num (mantissa : Int) (exponent : Int)
  | str (s : String)
  | arr (items : List Json)
  | obj (fields : List (String × Json))
deriving Inhabited, BEq, Repr

namespace Json

/-- An integer as a JSON number. -/
def int (n : Int) : Json := num n 0

/-- A natural number as a JSON number. -/
def nat (n : Nat) : Json := num n 0

/-- The member `key` of an object. -/
def get? (j : Json) (key : String) : Option Json :=
  match j with
  | obj fields => (fields.find? (·.1 == key)).map (·.2)
  | _ => none

/-- The integer a number stands for, when it is one. -/
def asInt? : Json → Option Int
  | num m e => if e ≥ 0 then some (m * Int.pow 10 e.toNat) else
      let d : Int := Int.pow 10 e.natAbs
      if m % d = 0 then some (m / d) else none
  | _ => none

/-- The text of a string value. -/
def asStr? : Json → Option String
  | str s => some s
  | _ => none

/-- The truth value of a boolean. -/
def asBool? : Json → Option Bool
  | bool b => some b
  | _ => none

/-- The items of an array. -/
def asArr? : Json → Option (List Json)
  | arr xs => some xs
  | _ => none

/-- The members of an object. -/
def asObj? : Json → Option (List (String × Json))
  | obj fs => some fs
  | _ => none

/-- Four hexadecimal digits, lower case. -/
def hex4 (n : Nat) : String :=
  let digit (d : Nat) : Char := if d < 10 then Char.ofNat (48 + d) else Char.ofNat (87 + d)
  String.ofList [digit (n / 4096 % 16), digit (n / 256 % 16), digit (n / 16 % 16), digit (n % 16)]

/-- A character inside a written string. -/
def escapeChar (c : Char) : String :=
  if c = '"' then "\\\""
  else if c = '\\' then "\\\\"
  else if c = '\n' then "\\n"
  else if c = '\r' then "\\r"
  else if c = '\t' then "\\t"
  else if c.toNat < 0x20 then "\\u" ++ hex4 c.toNat
  else c.toString

/-- A string as a JSON string literal. -/
def quote (s : String) : String := "\"" ++ String.join (s.toList.map escapeChar) ++ "\""

/-- The text of a number: an integer when the exponent is not negative, else a decimal. -/
def numText (m : Int) (e : Int) : String :=
  if e ≥ 0 then toString (m * Int.pow 10 e.toNat)
  else
    let digits := toString m.natAbs
    let k := e.natAbs
    let padded := String.ofList (List.replicate (k + 1 - min (k + 1) digits.length) '0') ++ digits
    let intPart := padded.toList.take (padded.length - k)
    let fracPart := (padded.toList.drop (padded.length - k)).reverse.dropWhile (· = '0') |>.reverse
    (if m < 0 then "-" else "") ++ String.ofList intPart ++
      (if fracPart.isEmpty then "" else "." ++ String.ofList fracPart)

mutual

/-- The compact text of a value. -/
def render : Json → String
  | null => "null"
  | bool b => if b then "true" else "false"
  | num m e => numText m e
  | str s => quote s
  | arr items => "[" ++ renderItems items ++ "]"
  | obj fields => "\x7b" ++ renderFields fields ++ "\x7d"

/-- The items of an array, comma-separated. -/
def renderItems : List Json → String
  | [] => ""
  | [x] => render x
  | x :: xs => render x ++ "," ++ renderItems xs

/-- The members of an object, comma-separated. -/
def renderFields : List (String × Json) → String
  | [] => ""
  | [(k, v)] => quote k ++ ":" ++ render v
  | (k, v) :: fs => quote k ++ ":" ++ render v ++ "," ++ renderFields fs

end

/-- Skips whitespace. -/
def skipWs : List Char → List Char
  | c :: r => if c = ' ' || c = '\n' || c = '\r' || c = '\t' then skipWs r else c :: r
  | [] => []

/-- The value of a hexadecimal digit. -/
def hexVal? (c : Char) : Option Nat :=
  if '0' ≤ c && c ≤ '9' then some (c.toNat - 48)
  else if 'a' ≤ c && c ≤ 'f' then some (c.toNat - 87)
  else if 'A' ≤ c && c ≤ 'F' then some (c.toNat - 55)
  else none

/-- Four hexadecimal digits at the front. -/
def hex4? : List Char → Option (Nat × List Char)
  | a :: b :: c :: d :: r => do
    let x ← hexVal? a
    let y ← hexVal? b
    let z ← hexVal? c
    let w ← hexVal? d
    pure (((x * 16 + y) * 16 + z) * 16 + w, r)
  | _ => none

/-- The body of a string literal after its opening quote, up to and over the closing quote;
`fuel` bounds the characters read. -/
def readString : Nat → List Char → List Char → Option (String × List Char)
  | 0, _, _ => none
  | _ + 1, [], _ => none
  | fuel + 1, c :: r, acc =>
    if c = '"' then some (String.ofList acc.reverse, r)
    else if c = '\\' then
      match r with
      | e :: r =>
        if e = 'u' then
          match hex4? r with
          | some (u, r) =>
            if 0xD800 ≤ u && u < 0xDC00 then
              match r with
              | '\\' :: 'u' :: r2 =>
                match hex4? r2 with
                | some (v, r3) =>
                  if 0xDC00 ≤ v && v < 0xE000 then
                    readString fuel r3 (Char.ofNat (0x10000 + (u - 0xD800) * 1024 + (v - 0xDC00)) :: acc)
                  else readString fuel r ('�' :: acc)
                | none => none
              | _ => readString fuel r ('�' :: acc)
            else if 0xDC00 ≤ u && u < 0xE000 then readString fuel r ('�' :: acc)
            else readString fuel r (Char.ofNat u :: acc)
          | none => none
        else
          match [('"', '"'), ('\\', '\\'), ('/', '/'), ('b', '\x08'), ('f', '\x0c'), ('n', '\n'),
                 ('r', '\r'), ('t', '\t')].find? (·.1 = e) with
          | some (_, x) => readString fuel r (x :: acc)
          | none => none
      | [] => none
    else if c.toNat < 0x20 then none
    else readString fuel r (c :: acc)

/-- A number at the front: sign, integer part without leading zeros, fraction, exponent. -/
def readNumber (cs : List Char) : Option (Json × List Char) :=
  let (neg, r) := match cs with
    | '-' :: r => (true, r)
    | r => (false, r)
  let intDigits := r.takeWhile Char.isDigit
  let r := r.dropWhile Char.isDigit
  if intDigits.isEmpty || (intDigits.length > 1 && intDigits.head? = some '0') then none
  else
    let (fracDigits, r, okFrac) := match r with
      | '.' :: r' =>
        let ds := r'.takeWhile Char.isDigit
        (ds, r'.dropWhile Char.isDigit, !ds.isEmpty)
      | r' => ([], r', true)
    let (expVal, r, okExp) : Int × List Char × Bool := match r with
      | c :: r' =>
        if c = 'e' || c = 'E' then
          let (eneg, r'') := match r' with
            | '-' :: t => (true, t)
            | '+' :: t => (false, t)
            | t => (false, t)
          let ds := r''.takeWhile Char.isDigit
          let v : Int := ds.foldl (fun a d => a * 10 + (d.toNat - 48)) 0
          (if eneg then -v else v, r''.dropWhile Char.isDigit, !ds.isEmpty)
        else (0, c :: r', true)
      | [] => (0, [], true)
    if !okFrac || !okExp then none
    else
      let m : Int := (intDigits ++ fracDigits).foldl (fun a d => a * 10 + (d.toNat - 48)) 0
      some (num (if neg then -m else m) (expVal - fracDigits.length), r)

/-- Whether the characters start with a word. -/
def startsWith (cs : List Char) (w : String) : Bool := cs.take w.length == w.toList

mutual

/-- A value at the front, after whitespace; `fuel` bounds the nesting. -/
def readValue : Nat → List Char → Option (Json × List Char)
  | 0, _ => none
  | fuel + 1, cs =>
    match skipWs cs with
    | '{' :: r => readMembers fuel (skipWs r) []
    | '[' :: r => readItems fuel (skipWs r) []
    | '"' :: r => (readString (r.length + 1) r []).map fun (s, r) => (str s, r)
    | r =>
      if startsWith r "true" then some (bool true, r.drop 4)
      else if startsWith r "false" then some (bool false, r.drop 5)
      else if startsWith r "null" then some (null, r.drop 4)
      else readNumber r

/-- The members of an object after its opening brace. -/
def readMembers : Nat → List Char → List (String × Json) → Option (Json × List Char)
  | 0, _, _ => none
  | fuel + 1, cs, acc =>
    match cs, acc with
    | '}' :: r, [] => some (obj [], r)
    | '"' :: r, _ =>
      match readString (r.length + 1) r [] with
      | some (k, r) =>
        match skipWs r with
        | ':' :: r =>
          match readValue fuel r with
          | some (v, r) =>
            match skipWs r with
            | ',' :: r => readMembers fuel (skipWs r) ((k, v) :: acc)
            | '}' :: r => some (obj ((k, v) :: acc).reverse, r)
            | _ => none
          | none => none
        | _ => none
      | none => none
    | _, _ => none

/-- The items of an array after its opening bracket. -/
def readItems : Nat → List Char → List Json → Option (Json × List Char)
  | 0, _, _ => none
  | fuel + 1, cs, acc =>
    match cs, acc with
    | ']' :: r, [] => some (arr [], r)
    | _, _ =>
      match readValue fuel cs with
      | some (v, r) =>
        match skipWs r with
        | ',' :: r => readItems fuel (skipWs r) (v :: acc)
        | ']' :: r => some (arr (v :: acc).reverse, r)
        | _ => none
      | none => none

end

/-- Reads a whole text as one JSON value. -/
def parse? (s : String) : Option Json :=
  let cs := s.toList
  match readValue (cs.length + 1) cs with
  | some (v, r) => if (skipWs r).isEmpty then some v else none
  | none => none

end Json

end StackScript
