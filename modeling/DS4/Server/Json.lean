import DS4.Server.Dsml

namespace DS4.Server

/-!
# Server — reading JSON

The reader of tool-call arguments. A position in a C string is what is left of it, so that the
end of the list is the terminating NUL.

* `jsonWs`, `jsonString`, `jsonNumber` — the leaves.
* `jsonSkipValue`, `jsonRawValue` — a value of any kind, with the ceiling on nesting.
* `jsonMinifyRawValue` — a value without the white space between its tokens.
* `jsonArgsParse` — the members of an object.
-/

/-- `json_ws` -/
def jsonWs (s : Bytes) : Bytes := s.dropWhile isspace

/-- `json_lit`: what follows a literal. -/
def jsonLit (s l : Bytes) : Option Bytes :=
  if l.isPrefixOf s then some (s.drop l.length) else none

/-! ### Strings -/

/-- `json_hex` -/
def jsonHex (c : UInt8) : Option Nat :=
  if '0'.toUInt8 ≤ c ∧ c ≤ '9'.toUInt8 then some (c.toNat - 48)
  else if 'a'.toUInt8 ≤ c ∧ c ≤ 'f'.toUInt8 then some (c.toNat - 97 + 10)
  else if 'A'.toUInt8 ≤ c ∧ c ≤ 'F'.toUInt8 then some (c.toNat - 65 + 10)
  else none

/-- `utf8_put` -/
def utf8Put (cp : Nat) : Bytes :=
  if cp ≤ 0x7f then [UInt8.ofNat cp]
  else if cp ≤ 0x7ff then [UInt8.ofNat (0xc0 + cp / 64), UInt8.ofNat (0x80 + cp % 64)]
  else if cp ≤ 0xffff then
    [UInt8.ofNat (0xe0 + cp / 4096), UInt8.ofNat (0x80 + cp / 64 % 64),
      UInt8.ofNat (0x80 + cp % 64)]
  else
    [UInt8.ofNat (0xf0 + cp / 262144), UInt8.ofNat (0x80 + cp / 4096 % 64),
      UInt8.ofNat (0x80 + cp / 64 % 64), UInt8.ofNat (0x80 + cp % 64)]

/-- `json_u16`: the code unit of a `\uXXXX` and what follows it. -/
def jsonU16 (s : Bytes) : Option (Nat × Bytes) :=
  match s with
  | b :: u :: c0 :: c1 :: c2 :: c3 :: rest =>
    if b = '\\'.toUInt8 ∧ u = 'u'.toUInt8 then
      match jsonHex c0, jsonHex c1, jsonHex c2, jsonHex c3 with
      | some h0, some h1, some h2, some h3 =>
        some (((h0 * 16 + h1) * 16 + h2) * 16 + h3, rest)
      | _, _, _, _ => none
    else none
  | _ => none

/-- The one-character escapes of `json_string`. -/
def jsonEscapeChar (c : UInt8) : Option UInt8 :=
  if c = '"'.toUInt8 ∨ c = '\\'.toUInt8 ∨ c = '/'.toUInt8 then some c
  else if c = 'b'.toUInt8 then some 0x08
  else if c = 'f'.toUInt8 then some 0x0c
  else if c = 'n'.toUInt8 then some 0x0a
  else if c = 'r'.toUInt8 then some 0x0d
  else if c = 't'.toUInt8 then some 0x09
  else none

/-- A `\u` escape: the bytes of its character, and what follows. A second escape after a high
    surrogate is read even if it is no low surrogate, and then it is lost. -/
def jsonUnicodeEscape (s : Bytes) : Option (Bytes × Bytes) :=
  match jsonU16 s with
  | none => none
  | some (cp, rest) =>
    if 0xd800 ≤ cp ∧ cp ≤ 0xdbff then
      match jsonU16 rest with
      | some (lo, rest') =>
        if 0xdc00 ≤ lo ∧ lo ≤ 0xdfff then
          some (utf8Put (0x10000 + (cp - 0xd800) * 1024 + (lo - 0xdc00)), rest')
        else some (utf8Put cp, rest')
      | none => some (utf8Put cp, rest)
    else some (utf8Put cp, rest)

/-- The loop of `json_string`: the bytes up to the closing quote, and what follows it. -/
def jsonStringBody : Nat → Bytes → Option (Bytes × Bytes)
  | 0, _ => none
  | _ + 1, [] => none
  | fuel + 1, c :: s =>
    if c = '"'.toUInt8 then some ([], s)
    else if c ≠ '\\'.toUInt8 then
      (jsonStringBody fuel s).map (fun r => (c :: r.1, r.2))
    else
      match s with
      | [] => none
      | e :: s' =>
        if e = 'u'.toUInt8 then
          match jsonUnicodeEscape (c :: s) with
          | none => none
          | some (bytes, rest) => (jsonStringBody fuel rest).map (fun r => (bytes ++ r.1, r.2))
        else
          match jsonEscapeChar e with
          | none => none
          | some b => (jsonStringBody fuel s').map (fun r => (b :: r.1, r.2))

/-- `json_string`: the string, which is read as a C string, and what follows it. -/
def jsonString (s : Bytes) : Option (Bytes × Bytes) :=
  match jsonWs s with
  | c :: s' =>
    if c = '"'.toUInt8 then (jsonStringBody (s'.length + 1) s').map (fun r => (cstr r.1, r.2))
    else none
  | [] => none

/-! ### Numbers -/

/-- `isdigit` -/
def isdigit (c : UInt8) : Bool := '0'.toUInt8 ≤ c && c ≤ '9'.toUInt8

/-- `isxdigit` -/
def isxdigit (c : UInt8) : Bool := (jsonHex c).isSome

/-- `tolower` in the C locale. -/
def tolower (c : UInt8) : UInt8 := if 'A'.toUInt8 ≤ c ∧ c ≤ 'Z'.toUInt8 then c + 0x20 else c

/-- Does a text start with a word, in either case? -/
def startsWord (s word : Bytes) : Bool := word.isPrefixOf (s.map tolower)

/-- What follows the digits of a number, with at most one point and at least one digit. -/
def scanMantissa (digit : UInt8 → Bool) (s : Bytes) : Option Bytes :=
  let a := s.dropWhile digit
  match a with
  | c :: b =>
    if c = '.'.toUInt8 ∧ (a.length < s.length ∨ (b.dropWhile digit).length < b.length) then
      some (b.dropWhile digit)
    else if a.length < s.length then some a
    else none
  | [] => if a.length < s.length then some a else none

/-- What follows the exponent, if there is one. -/
def scanExponent (mark : UInt8) (s : Bytes) : Bytes :=
  match s with
  | c :: t =>
    if tolower c = mark then
      let u := match t with
        | d :: u => if d = '+'.toUInt8 ∨ d = '-'.toUInt8 then u else t
        | []     => t
      if (u.dropWhile isdigit).length < u.length then u.dropWhile isdigit else s
    else s
  | [] => s

/-- The characters between the parentheses of a `nan(...)`. -/
def nanChar (c : UInt8) : Bool :=
  isdigit c || ('a'.toUInt8 ≤ tolower c && tolower c ≤ 'z'.toUInt8) || c == '_'.toUInt8

/-- What follows a `nan`. -/
def scanNanChars (s : Bytes) : Bytes :=
  match s with
  | c :: t =>
    match t.dropWhile nanChar with
    | d :: u => if c = '('.toUInt8 ∧ d = ')'.toUInt8 then u else s
    | []     => s
  | [] => s

/-- The subject of `strtod` after its sign. -/
def scanUnsigned (s : Bytes) : Option Bytes :=
  let decimal := (scanMantissa isdigit s).map (scanExponent 'e'.toUInt8)
  if startsWord s (lit "0x") then
    match scanMantissa isxdigit (s.drop 2) with
    | some rest => some (scanExponent 'p'.toUInt8 rest)
    | none      => decimal
  else if startsWord s (lit "infinity") then some (s.drop 8)
  else if startsWord s (lit "inf") then some (s.drop 3)
  else if startsWord s (lit "nan") then some (scanNanChars (s.drop 3))
  else decimal

/-- `json_number`: what `strtod` leaves of the text, if it converts anything. -/
def jsonNumber (s : Bytes) : Option Bytes :=
  match jsonWs s with
  | c :: t =>
    if c = '+'.toUInt8 ∨ c = '-'.toUInt8 then scanUnsigned t else scanUnsigned (c :: t)
  | [] => none

/-! ### Values -/

/-- `JSON_MAX_NESTING` -/
def JSON_MAX_NESTING : Nat := 256

/-- The literals of `json_skip_value_depth`, else a number. -/
def jsonSkipScalar (s : Bytes) : Option Bytes :=
  ((jsonLit s (lit "true")).or (jsonLit s (lit "false"))).or
    ((jsonLit s (lit "null")).or (jsonNumber s))

mutual

/-- `json_skip_value_depth`, with the heads of `json_skip_array_depth` and
    `json_skip_object_depth`. -/
def jsonSkipValueDepth : Nat → Nat → Bytes → Option Bytes
  | 0, _, _ => none
  | fuel + 1, depth, s =>
    match jsonWs s with
    | [] => jsonSkipScalar []
    | c :: t =>
      if c = '"'.toUInt8 then (jsonString (c :: t)).map Prod.snd
      else if c = '\x7b'.toUInt8 then
        if JSON_MAX_NESTING ≤ depth then none
        else
          match jsonWs t with
          | [] => jsonSkipMembers fuel depth []
          | d :: u =>
            if d = '\x7d'.toUInt8 then some u else jsonSkipMembers fuel depth (d :: u)
      else if c = '['.toUInt8 then
        if JSON_MAX_NESTING ≤ depth then none
        else
          match jsonWs t with
          | [] => jsonSkipElems fuel depth []
          | d :: u =>
            if d = ']'.toUInt8 then some u else jsonSkipElems fuel depth (d :: u)
      else jsonSkipScalar (c :: t)

/-- The loop of `json_skip_array_depth`. -/
def jsonSkipElems : Nat → Nat → Bytes → Option Bytes
  | 0, _, _ => none
  | fuel + 1, depth, s =>
    match jsonSkipValueDepth fuel (depth + 1) s with
    | none => none
    | some rest =>
      match jsonWs rest with
      | [] => none
      | c :: t =>
        if c = ']'.toUInt8 then some t
        else if c = ','.toUInt8 then jsonSkipElems fuel depth t
        else none

/-- The loop of `json_skip_object_depth`. -/
def jsonSkipMembers : Nat → Nat → Bytes → Option Bytes
  | 0, _, _ => none
  | fuel + 1, depth, s =>
    match jsonString s with
    | none => none
    | some (_, afterKey) =>
      match jsonWs afterKey with
      | [] => none
      | colon :: value =>
        if colon ≠ ':'.toUInt8 then none
        else
          match jsonSkipValueDepth fuel (depth + 1) value with
          | none => none
          | some rest =>
            match jsonWs rest with
            | [] => none
            | c :: t =>
              if c = '\x7d'.toUInt8 then some t
              else if c = ','.toUInt8 then jsonSkipMembers fuel depth t
              else none

end

/-- `json_skip_value`; every second step of the recursion takes a byte. -/
def jsonSkipValue (s : Bytes) : Option Bytes := jsonSkipValueDepth (2 * s.length + 2) 0 s

/-- `json_raw_value`: the text of a value and what follows it. -/
def jsonRawValue (s : Bytes) : Option (Bytes × Bytes) :=
  let start := jsonWs s
  (jsonSkipValue start).map (fun rest => (start.take (start.length - rest.length), rest))

/-- The loop of `json_minify_raw_value`. -/
def minifyFrom (inString escape : Bool) : Bytes → Bytes
  | [] => []
  | c :: s =>
    if inString then
      c ::
        (if escape then minifyFrom true false s
         else if c = '\\'.toUInt8 then minifyFrom true true s
         else minifyFrom (c ≠ '"'.toUInt8) false s)
    else if c = '"'.toUInt8 then c :: minifyFrom true escape s
    else if isspace c then minifyFrom false escape s
    else c :: minifyFrom false escape s

/-- `json_minify_raw_value` -/
def jsonMinifyRawValue (json : Bytes) : Bytes :=
  match jsonRawValue json with
  | none           => json
  | some (raw, _) => minifyFrom false false raw

/-! ### Arguments -/

/-- `json_arg`; `used` is local to the ordering by a schema. -/
structure JsonArg where
  key : Bytes
  value : Bytes
  isString : Bool
  deriving DecidableEq

/-- The value of one member of `json_args_parse`. -/
def jsonArgValue (key s : Bytes) : Option (JsonArg × Bytes) :=
  match jsonWs s with
  | c :: t =>
    if c = '"'.toUInt8 then
      (jsonString (c :: t)).map (fun r => (⟨key, r.1, true⟩, r.2))
    else (jsonRawValue (c :: t)).map (fun r => (⟨key, jsonMinifyRawValue r.1, false⟩, r.2))
  | [] => none

/-- One member of `json_args_parse`. -/
def jsonArg (s : Bytes) : Option (JsonArg × Bytes) :=
  match jsonString s with
  | none => none
  | some (key, afterKey) =>
    match jsonWs afterKey with
    | [] => none
    | colon :: value => if colon = ':'.toUInt8 then jsonArgValue key value else none

/-- Past the comma after a member, if there is one. -/
def jsonSkipComma (s : Bytes) : Bytes :=
  match jsonWs s with
  | c :: t => if c = ','.toUInt8 then jsonWs t else c :: t
  | []     => []

/-- The loop of `json_args_parse`. -/
def jsonArgsLoop : Nat → Bytes → Option (List JsonArg)
  | 0, _ => none
  | _ + 1, [] => none
  | fuel + 1, c :: s =>
    if c = '\x7d'.toUInt8 then some []
    else
      match jsonArg (c :: s) with
      | none => none
      | some (arg, rest) => (jsonArgsLoop fuel (jsonSkipComma rest)).map (arg :: ·)

/-- `json_args_parse`; what follows the object is not read. -/
def jsonArgsParse (json : Bytes) : Option (List JsonArg) :=
  match jsonWs (cstr json) with
  | c :: s => if c = '\x7b'.toUInt8 then jsonArgsLoop (s.length + 1) (jsonWs s) else none
  | []     => none

end DS4.Server
