/-
  JSON as Python's `json` module writes and reads it.

  * `Tree` is a document: objects list their members in the order of the text;
  * `Value` is a Python value: dictionaries keep the order of insertion, and may
    have keys that are not strings;
  * `dumps` sorts and stringifies the keys (`encode`) and prints (`render`),
    `loads` scans (`scanValue`) and builds the value (`Tree.toValue`).
-/
import Mathlib.Data.List.Sort
import Mathlib.Data.Nat.Digits.Defs
import ResumableBatch.Lib.Text

namespace Json

open Text

/-! ## Values and documents -/

/-- What a piece of syntax stands for. -/
inductive Shape where
  | value
  | items
  | members

/-- A JSON document. -/
inductive Tree (F : Type) : Shape → Type where
  | null : Tree F .value
  | bool (b : Bool) : Tree F .value
  | int (n : ℤ) : Tree F .value
  | float (x : F) : Tree F .value
  | str (s : Str) : Tree F .value
  | array (xs : Tree F .items) : Tree F .value
  | object (ms : Tree F .members) : Tree F .value
  | nil : Tree F .items
  | cons (x : Tree F .value) (xs : Tree F .items) : Tree F .items
  | empty : Tree F .members
  | member (k : Str) (x : Tree F .value) (ms : Tree F .members) : Tree F .members
  deriving DecidableEq

/-- The keys `json.dumps` takes. -/
inductive Key (F : Type) where
  | str (s : Str)
  | int (n : ℤ)
  | float (x : F)
  | bool (b : Bool)
  | none
  deriving DecidableEq

/-- A Python value that `json.dumps` takes. -/
inductive Value (F : Type) : Shape → Type where
  | none : Value F .value
  | bool (b : Bool) : Value F .value
  | int (n : ℤ) : Value F .value
  | float (x : F) : Value F .value
  | str (s : Str) : Value F .value
  | list (xs : Value F .items) : Value F .value
  | tuple (xs : Value F .items) : Value F .value
  | dict (ms : Value F .members) : Value F .value
  | nil : Value F .items
  | cons (x : Value F .value) (xs : Value F .items) : Value F .items
  | empty : Value F .members
  | item (k : Key F) (x : Value F .value) (ms : Value F .members) : Value F .members
  deriving DecidableEq

variable {F : Type}

/-- A Python object. -/
abbrev PyVal (F : Type) := Value F .value

namespace Tree

/-- The members of an object, in order. -/
def toList {sh : Shape} : Tree F sh → List (Str × Tree F .value)
  | member k x ms => (k, x) :: toList ms
  | _ => []

def ofList : List (Str × Tree F .value) → Tree F .members
  | [] => empty
  | (k, x) :: ps => member k x (ofList ps)

/-- How deep arrays and objects are nested. -/
def depth {sh : Shape} : Tree F sh → ℕ
  | array xs => depth xs + 1
  | object ms => depth ms + 1
  | cons x xs => max (depth x) (depth xs)
  | member _ x ms => max (depth x) (depth ms)
  | _ => 0

end Tree

namespace Value

/-- The items of a dictionary, in order of insertion. -/
def toList {sh : Shape} : Value F sh → List (Key F × PyVal F)
  | item k x ms => (k, x) :: toList ms
  | _ => []

def ofList : List (Key F × PyVal F) → Value F .members
  | [] => empty
  | (k, x) :: ps => item k x (ofList ps)

/-- `d.get(key)` of a dictionary. -/
def get [DecidableEq F] (k : Key F) {sh : Shape} : Value F sh → Option (PyVal F)
  | item k' x ms => if k' = k then some x else get k ms
  | _ => Option.none

def depth {sh : Shape} : Value F sh → ℕ
  | list xs | tuple xs => depth xs + 1
  | dict ms => depth ms + 1
  | cons x xs => max (depth x) (depth xs)
  | item _ x ms => max (depth x) (depth ms)
  | _ => 0

end Value

/-! ## The interpreter -/

/-- The exceptions of `json`, `str.encode` and `sorted` that code tells apart. -/
inductive PyError where
  | valueError
  | typeError
  | recursionError
  | unicodeEncodeError
  deriving DecidableEq

/-- A decimal digit. -/
def isDigit (c : Code) : Bool := 48 ≤ c ∧ c ≤ 57

/-- `(0|[1-9][0-9]*)` -/
def IntPart (s : Str) : Prop := s = [48] ∨ ∃ d ds, s = d :: ds ∧ 49 ≤ d ∧ d ≤ 57 ∧ ds.all isDigit

/-- `(\.[0-9]+)?` -/
def FracPart (s : Str) : Prop := s = [] ∨ ∃ ds, s = 46 :: ds ∧ ds ≠ [] ∧ ds.all isDigit

/-- `([eE][-+]?[0-9]+)?` -/
def ExpPart (s : Str) : Prop :=
  s = [] ∨ ∃ e sign ds, s = e :: sign ++ ds ∧ (e = 101 ∨ e = 69) ∧
    (sign = [] ∨ sign = [43] ∨ sign = [45]) ∧ ds ≠ [] ∧ ds.all isDigit

/-- A number with a fraction or an exponent. -/
structure FloatToken (s : Str) : Prop where
  parts : ∃ sign ip fr ex, s = sign ++ ip ++ fr ++ ex ∧ (sign = [] ∨ sign = [45]) ∧
    IntPart ip ∧ FracPart fr ∧ ExpPart ex ∧ (fr ≠ [] ∨ ex ≠ [])

/-- The parts of the interpreter that are left open: floats and their texts, the
    order of keys that are numbers, `str` of floats and containers, and limits. -/
structure Interp (F : Type) where
  nan : F
  inf : F
  negInf : F
  /-- the text of a float in a document -/
  floatstr : F → Str
  /-- `float(text)` -/
  parseFloat : Str → F
  /-- `float == int` -/
  floatEqInt : F → ℤ → Bool
  /-- `str` of a float -/
  strFloat : F → Str
  /-- `str` of a list, a tuple or a dictionary, after its opening bracket -/
  strInside : PyVal F → Except PyError Str
  /-- `sorted` of items whose keys are numbers -/
  sortNumbers : List (Key F × Tree F .value) → List (Key F × Tree F .value)
  /-- `sys.get_int_max_str_digits()` -/
  maxDigits : ℕ
  /-- the nesting at which the encoder and the scanner raise `RecursionError` -/
  encodeDepth : ℕ
  scanDepth : ℕ
  /-- the nesting at which the encoder does, called from one frame further in -/
  innerDepth : ℕ
  /-- `repr` of a float is read back as that float -/
  floatstr_spec : ∀ x, (floatstr x = lit "NaN" ∧ x = nan) ∨
    (floatstr x = lit "Infinity" ∧ x = inf) ∨ (floatstr x = lit "-Infinity" ∧ x = negInf) ∨
    (FloatToken (floatstr x) ∧ parseFloat (floatstr x) = x)
  sortNumbers_perm : ∀ ps, (sortNumbers ps).Perm ps
  strInside_error : ∀ v e, strInside v = .error e → e = .recursionError
  depth_le : encodeDepth ≤ scanDepth
  inner_le : innerDepth ≤ encodeDepth
  three_le : 3 ≤ innerDepth

/-- The interpreter as code sees it that is called from one frame further in. -/
def Interp.inner (I : Interp F) : Interp F where
  __ := I
  encodeDepth := I.innerDepth
  depth_le := I.inner_le.trans I.depth_le
  inner_le := le_rfl

variable (I : Interp F)

/-! ## Writing -/

/-- The decimal digits of a number. -/
def natText (n : ℕ) : Str :=
  if n = 0 then [48] else (Nat.digits 10 n).reverse.map fun d => Fin.ofNat _ (48 + d)

/-- `int.__repr__`. -/
def intText : ℤ → Str
  | .ofNat n => natText n
  | .negSucc n => 45 :: natText (n + 1)

/-- `int.__repr__` with its limit. -/
def intRepr (n : ℤ) : Except PyError Str :=
  if I.maxDigits < (natText n.natAbs).length then .error .valueError else .ok (intText n)

/-- A hexadecimal digit, in lower case. -/
def hexDigit (n : ℕ) : Code := if n < 10 then Fin.ofNat _ (48 + n) else Fin.ofNat _ (87 + n)

/-- `\uXXXX` -/
def unicodeEscape (n : ℕ) : Str :=
  [92, 117, hexDigit (n / 4096 % 16), hexDigit (n / 256 % 16), hexDigit (n / 16 % 16),
    hexDigit (n % 16)]

/-- One code point of a string; `ascii` is `ensure_ascii`. -/
def escape (ascii : Bool) (c : Code) : Str :=
  if c = 34 then [92, 34]
  else if c = 92 then [92, 92]
  else if c = 10 then [92, 110]
  else if c = 13 then [92, 114]
  else if c = 9 then [92, 116]
  else if c = 12 then [92, 102]
  else if c = 8 then [92, 98]
  else if c < 32 then unicodeEscape c.val
  else if ascii ∧ 127 ≤ c then
    if c.val < 0x10000 then unicodeEscape c.val
    else unicodeEscape (0xd800 + (c.val - 0x10000) / 1024) ++
      unicodeEscape (0xdc00 + (c.val - 0x10000) % 1024)
  else [c]

def renderStr (ascii : Bool) (s : Str) : Str := 34 :: (s.flatMap (escape ascii) ++ [34])

/-- The text of a document, without spaces; items and members come with a comma
    before each. -/
def render (ascii : Bool) {sh : Shape} : Tree F sh → Str
  | .null => lit "null"
  | .bool true => lit "true"
  | .bool false => lit "false"
  | .int n => intText n
  | .float x => I.floatstr x
  | .str s => renderStr ascii s
  | .array xs => 91 :: ((render ascii xs).tail ++ [93])
  | .object ms => 123 :: ((render ascii ms).tail ++ [125])
  | .nil => []
  | .cons x xs => 44 :: (render ascii x ++ render ascii xs)
  | .empty => []
  | .member k x ms => 44 :: (renderStr ascii k ++ 58 :: (render ascii x ++ render ascii ms))

/-- The text of a key. -/
def keyText : Key F → Except PyError Str
  | .str s => .ok s
  | .int n => intRepr I n
  | .float x => .ok (I.floatstr x)
  | .bool true => .ok (lit "true")
  | .bool false => .ok (lit "false")
  | .none => .ok (lit "null")

def Key.isStr : Key F → Bool
  | .str _ => true
  | _ => false

def Key.isNumber : Key F → Bool
  | .int _ | .float _ | .bool _ => true
  | _ => false

/-- A key that is a string, as that string. -/
def Key.asStr : Key F → Str
  | .str s => s
  | _ => []

/-- Items sorted by keys that are strings. -/
def sortByKey {α : Type} (ps : List (Key F × α)) : List (Key F × α) :=
  ps.insertionSort fun a b => a.1.asStr ≤ b.1.asStr

/-- `sorted(dct.items())`: keys that cannot be compared raise `TypeError`. -/
def sortItems (ps : List (Key F × Tree F .value)) :
    Except PyError (List (Key F × Tree F .value)) :=
  if ps.length ≤ 1 then .ok ps
  else if ps.all (·.1.isStr) then .ok (sortByKey ps)
  else if ps.all (·.1.isNumber) then .ok (I.sortNumbers ps)
  else .error .typeError

/-- What the encoder makes of a piece of a value; the keys of members are still
    to be sorted and stringified. -/
abbrev Encoded (F : Type) : Shape → Type
  | .value => Tree F .value
  | .items => Tree F .items
  | .members => List (Key F × Tree F .value)

/-- The document of a value. -/
def encode {sh : Shape} : Value F sh → Except PyError (Encoded F sh)
  | .none => .ok Tree.null
  | .bool b => .ok (Tree.bool b)
  | .int n => do
    let _ ← intRepr I n
    .ok (Tree.int n)
  | .float x => .ok (Tree.float x)
  | .str s => .ok (Tree.str s)
  | .list xs => do .ok (Tree.array (← encode xs))
  | .tuple xs => do .ok (Tree.array (← encode xs))
  | .dict ms => do
    let ps ← sortItems I (← encode ms)
    let ps ← ps.mapM fun p => do .ok (← keyText I p.1, p.2)
    .ok (Tree.object (.ofList ps))
  | .nil => .ok Tree.nil
  | .cons x xs => do .ok (Tree.cons (← encode x) (← encode xs))
  | .empty => .ok []
  | .item k x ms => do .ok ((k, ← encode x) :: (← encode ms))

/-- `json.dumps(v, sort_keys=True, separators=(",", ":"), ensure_ascii=ascii)`. -/
def dumps (ascii : Bool) (v : PyVal F) : Except PyError Str :=
  if I.encodeDepth < v.depth then .error .recursionError
  else do .ok (render I ascii (← encode I v : Tree F .value))

/-! ## Reading -/

/-- What a scanner makes of a text: a piece of a document, and the text after it. -/
abbrev Scanned (F : Type) (sh : Shape) := Except PyError (Tree F sh × Str)

/-- `[ \t\n\r]` -/
def isSpace (c : Code) : Bool := c = 32 ∨ c = 9 ∨ c = 10 ∨ c = 13

/-- The text after its leading white space. -/
def skipWs (s : Str) : Str := s.dropWhile isSpace

/-- The text after `t`, where it starts with `t`. -/
def expect (t s : Str) : Option Str := if t.isPrefixOf s then some (s.drop t.length) else none

/-- The value of a hexadecimal digit. -/
def hexValue (c : Code) : Option ℕ :=
  if 48 ≤ c ∧ c ≤ 57 then some (c.val - 48)
  else if 97 ≤ c ∧ c ≤ 102 then some (c.val - 87)
  else if 65 ≤ c ∧ c ≤ 70 then some (c.val - 55)
  else none

/-- The code point of `\uXXXX`. -/
def hex4 (a b c d : Code) : Except PyError Code :=
  match hexValue a, hexValue b, hexValue c, hexValue d with
  | some a, some b, some c, some d => .ok (Fin.ofNat _ (4096 * a + 256 * b + 16 * c + d))
  | _, _, _, _ => .error .valueError

/-- What a backslash and a code point other than `u` stand for. -/
def backslash (c : Code) : Except PyError Code :=
  if c = 34 then .ok 34
  else if c = 92 then .ok 92
  else if c = 47 then .ok 47
  else if c = 98 then .ok 8
  else if c = 102 then .ok 12
  else if c = 110 then .ok 10
  else if c = 114 then .ok 13
  else if c = 116 then .ok 9
  else .error .valueError

/-- The rest of a string, after its opening quote: its code points, each with
    whether it was written `\uXXXX`. -/
def scanChars : Str → Except PyError (List (Bool × Code) × Str)
  | [] => .error .valueError
  | c :: rest =>
    if c = 34 then .ok ([], rest)
    else if c = 92 then
      match rest with
      | [] => .error .valueError
      | e :: rest =>
        if e = 117 then
          match rest with
          | x :: y :: z :: w :: rest => do
            let u ← hex4 x y z w
            let (cs, rest) ← scanChars rest
            .ok ((true, u) :: cs, rest)
          | _ => .error .valueError
        else do
          let u ← backslash e
          let (cs, rest) ← scanChars rest
          .ok ((false, u) :: cs, rest)
    else if c < 32 then .error .valueError
    else do
      let (cs, rest) ← scanChars rest
      .ok ((false, c) :: cs, rest)

/-- The first half of a surrogate pair. -/
def High (c : Code) : Prop := 0xd800 ≤ c.val ∧ c.val ≤ 0xdbff

/-- The second half of a surrogate pair. -/
def Low (c : Code) : Prop := 0xdc00 ≤ c.val ∧ c.val ≤ 0xdfff

instance (c : Code) : Decidable (High c) := inferInstanceAs (Decidable (_ ∧ _))

instance (c : Code) : Decidable (Low c) := inferInstanceAs (Decidable (_ ∧ _))

/-- The code point of a surrogate pair. -/
def combine (c d : Code) : Code :=
  Fin.ofNat _ (0x10000 + (c.val - 0xd800) * 1024 + (d.val - 0xdc00))

/-- Two surrogates that were written `\uXXXX\uXXXX` are one code point. -/
def joinPairs : List (Bool × Code) → Str
  | [] => []
  | [x] => [x.2]
  | x :: y :: rest =>
    if x.1 ∧ y.1 ∧ High x.2 ∧ Low y.2 then combine x.2 y.2 :: joinPairs rest
    else x.2 :: joinPairs (y :: rest)

/-- `scanstring`, after the opening quote. -/
def scanStr (s : Str) : Except PyError (Str × Str) := do
  let (cs, rest) ← scanChars s
  .ok (joinPairs cs, rest)

/-- `-?` -/
def takeSign (s : Str) : Str × Str :=
  match s with
  | [] => ([], [])
  | c :: rest => if c = 45 then ([45], rest) else ([], s)

/-- `(0|[1-9][0-9]*)` -/
def takeInt (s : Str) : Option (Str × Str) :=
  match s with
  | [] => none
  | c :: rest =>
    if c = 48 then some ([48], rest)
    else if isDigit c then some (s.takeWhile isDigit, s.dropWhile isDigit)
    else none

/-- `(\.[0-9]+)?` -/
def takeFrac (s : Str) : Str × Str :=
  match s with
  | [] => ([], [])
  | c :: ds =>
    if c = 46 ∧ ds.takeWhile isDigit ≠ [] then (46 :: ds.takeWhile isDigit, ds.dropWhile isDigit)
    else ([], s)

/-- `[-+]?` -/
def takeExpSign (s : Str) : Str × Str :=
  match s with
  | [] => ([], [])
  | c :: rest => if c = 43 ∨ c = 45 then ([c], rest) else ([], s)

/-- `([eE][-+]?[0-9]+)?` -/
def takeExp (s : Str) : Str × Str :=
  match s with
  | [] => ([], [])
  | e :: rest =>
    let (sign, ds) := takeExpSign rest
    if (e = 101 ∨ e = 69) ∧ ds.takeWhile isDigit ≠ [] then
      (e :: sign ++ ds.takeWhile isDigit, ds.dropWhile isDigit)
    else ([], s)

/-- The number that decimal digits stand for. -/
def natValue (s : Str) : ℕ := Nat.ofDigits 10 (s.reverse.map fun c => c.val - 48)

/-- `int(text)`. -/
def intValue (sign ip : Str) : ℤ := if sign = [] then natValue ip else -natValue ip

/-- A number; `none` where there is none. -/
def scanNumber (s : Str) : Option (Scanned F .value) :=
  let (sign, s) := takeSign s
  match takeInt s with
  | none => none
  | some (ip, s) =>
    let (fr, s) := takeFrac s
    let (ex, s) := takeExp s
    if fr = [] ∧ ex = [] then
      if I.maxDigits < ip.length then some (.error .valueError)
      else some (.ok (.int (intValue sign ip), s))
    else some (.ok (.float (I.parseFloat (sign ++ ip ++ fr ++ ex)), s))

/-- The first of some constants that the text starts with. -/
def scanConstant (cs : List (Str × Tree F .value)) (s : Str) : Option (Tree F .value × Str) :=
  cs.findSome? fun (t, x) => (expect t s).map fun rest => (x, rest)

/-- A value that is no string and no container. -/
def scanAtom (s : Str) : Scanned F .value :=
  match scanConstant [(lit "null", .null), (lit "true", .bool true), (lit "false", .bool false)] s
  with
  | some r => .ok r
  | none =>
    match scanNumber I s with
    | some r => r
    | none =>
      match scanConstant [(lit "NaN", .float I.nan), (lit "Infinity", .float I.inf),
          (lit "-Infinity", .float I.negInf)] s with
      | some r => .ok r
      | none => .error .valueError

/-- The items of an array, up to its closing bracket.  Every item takes up a
    code point, so that the length of the text is fuel enough. -/
def scanItems (scan : Str → Scanned F .value) : ℕ → Str → Scanned F .items
  | 0, _ => .error .valueError
  | fuel + 1, s => do
    let (x, s) ← scan s
    match skipWs s with
    | [] => .error .valueError
    | c :: s =>
      if c = 93 then .ok (.cons x .nil, s)
      else if c = 44 then do
        let (xs, s) ← scanItems scan fuel (skipWs s)
        .ok (.cons x xs, s)
      else .error .valueError

/-- `JSONArray`, after the opening bracket. -/
def scanArray (scan : Str → Scanned F .value) (s : Str) : Scanned F .items :=
  match skipWs s with
  | [] => .error .valueError
  | c :: rest => if c = 93 then .ok (.nil, rest) else scanItems scan (s.length + 1) (c :: rest)

/-- A key and its colon. -/
def scanKey (s : Str) : Except PyError (Str × Str) :=
  match s with
  | [] => .error .valueError
  | c :: s =>
    if c = 34 then do
      let (k, s) ← scanStr s
      match skipWs s with
      | [] => .error .valueError
      | c :: s => if c = 58 then .ok (k, skipWs s) else .error .valueError
    else .error .valueError

/-- The members of an object, up to its closing brace. -/
def scanMembers (scan : Str → Scanned F .value) : ℕ → Str → Scanned F .members
  | 0, _ => .error .valueError
  | fuel + 1, s => do
    let (k, s) ← scanKey s
    let (x, s) ← scan s
    match skipWs s with
    | [] => .error .valueError
    | c :: s =>
      if c = 125 then .ok (.member k x .empty, s)
      else if c = 44 then do
        let (ms, s) ← scanMembers scan fuel (skipWs s)
        .ok (.member k x ms, s)
      else .error .valueError

/-- `JSONObject`, after the opening brace. -/
def scanObject (scan : Str → Scanned F .value) (s : Str) : Scanned F .members :=
  match skipWs s with
  | [] => .error .valueError
  | c :: rest => if c = 125 then .ok (.empty, rest) else scanMembers scan (s.length + 1) (c :: rest)

/-- `scan_once`, with the nesting that is left. -/
def scanValue : ℕ → Str → Scanned F .value
  | _, [] => .error .valueError
  | depth, c :: rest =>
    if c = 34 then do
      let (t, rest) ← scanStr rest
      .ok (.str t, rest)
    else if c = 123 then
      match depth with
      | 0 => .error .recursionError
      | depth + 1 => do
        let (ms, rest) ← scanObject (scanValue depth) rest
        .ok (.object ms, rest)
    else if c = 91 then
      match depth with
      | 0 => .error .recursionError
      | depth + 1 => do
        let (xs, rest) ← scanArray (scanValue depth) rest
        .ok (.array xs, rest)
    else scanAtom I (c :: rest)

/-- `d[k] = x`. -/
def Value.set [DecidableEq F] (k : Key F) (x : PyVal F) {sh : Shape} :
    Value F sh → Value F .members
  | .item k' y ms => if k' = k then .item k' x ms else .item k' y (Value.set k x ms)
  | _ => .item k x .empty

/-- `dict(pairs)` -/
def Value.dictOf [DecidableEq F] (ps : List (Key F × PyVal F)) : Value F .members :=
  ps.foldl (fun d p => Value.set p.1 p.2 d) .empty

/-- The value of a document; of two members with one key the last counts. -/
def Tree.toValue [DecidableEq F] {sh : Shape} : Tree F sh → Value F sh
  | .null => .none
  | .bool b => .bool b
  | .int n => .int n
  | .float x => .float x
  | .str s => .str s
  | .array xs => .list (toValue xs)
  | .object ms => .dict (.dictOf (toValue ms).toList)
  | .nil => .nil
  | .cons x xs => .cons (toValue x) (toValue xs)
  | .empty => .empty
  | .member k x ms => .item (.str k) (toValue x) (toValue ms)

/-- The document of a text. -/
def parse (s : Str) : Except PyError (Tree F .value) :=
  if s.head? = some 0xfeff then .error .valueError
  else do
    let (t, rest) ← scanValue I I.scanDepth (skipWs s)
    if skipWs rest = [] then .ok t else .error .valueError

/-- `json.loads(s)`. -/
def loads [DecidableEq F] (s : Str) : Except PyError (PyVal F) := do .ok (← parse I s).toValue

/-! ## `str` -/

/-- `str(v)`. -/
def pyStr : PyVal F → Except PyError Str
  | .none => .ok (lit "None")
  | .bool true => .ok (lit "True")
  | .bool false => .ok (lit "False")
  | .int n => intRepr I n
  | .float x => .ok (I.strFloat x)
  | .str s => .ok s
  | .list xs => do .ok (91 :: (← I.strInside (.list xs)))
  | .tuple xs => do .ok (40 :: (← I.strInside (.tuple xs)))
  | .dict ms => do .ok (123 :: (← I.strInside (.dict ms)))

end Json
