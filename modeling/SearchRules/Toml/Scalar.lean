import SearchRules.Data.Basic
import SearchRules.Toml.Lexical

/-!
# Numbers, truth values, dates and times of TOML

What is written without quotes is a truth value, an integer, a binary64 number, a date or a time. Digits may be parted by single
underscores. An integer that fits 64 bits is read; one that fits 128 bits has no value here. A larger one is invalid, as is a
decimal beyond the binary64 range, a base without digits, and an integer in base ten whose underscores stand between
hexadecimal digits, though not all of it is digits. Dates and times are checked and then stand as a record of their text, since
nothing here asks for one.
-/

namespace SearchRules.Toml

/-- The digits of a number, its underscores taken out: one is allowed between any two digits. -/
def plainDigits (isDigit : Char → Bool) : List Char → Option (List Char)
  | [] => none
  | [c] => if isDigit c then some [c] else none
  | c :: '_' :: r => if isDigit c then (plainDigits isDigit r).map (c :: ·) else none
  | c :: r => if isDigit c then (plainDigits isDigit r).map (c :: ·) else none

/-- Decimal digits without a needless zero in front. -/
def wholeDigits (cs : List Char) : Option (List Char) :=
  match plainDigits Char.isDigit cs with
  | some ['0'] => some ['0']
  | some ('0' :: _) => none
  | digits => digits

/-- An integer, as far as it fits its bits. -/
def integer (negative : Bool) (n : Nat) : Data :=
  if negative then
    if n ≤ UInt64.size / 2 then .int (-(n : Int))
    else if n ≤ UInt64.size / 2 * UInt64.size then .unreadable
    else .invalid
  else if n < UInt64.size then .int n
  else if n < UInt64.size * UInt64.size then .unreadable
  else .invalid

/-- An integer in a base other than ten. -/
def basedInteger? (base : Nat) (isDigit : Char → Bool) (cs : List Char) : Option Data :=
  if cs.isEmpty then some .invalid
  else (plainDigits isDigit cs).map fun digits => integer false (digitsValue base digits)

/-- Whether a character is a hexadecimal digit. -/
def isHexDigit (c : Char) : Bool :=
  (hexValue? c).isSome

/-- Whether each underscore stands between two hexadecimal digits. -/
def isParted (cs : List Char) : Bool :=
  cs.head? != some '_' && cs.getLast? != some '_' &&
    (cs.zip (cs.drop 1)).all fun (a, b) => (a != '_' || isHexDigit b) && (b != '_' || isHexDigit a)

/-- Whether a text is parted like an integer in base ten: it leads with decimal digits up to an underscore, no zero is in
front, and no blank but the tab is in it. -/
def isPartedInteger (cs : List Char) : Bool :=
  cs.head? != some '0' && (cs.takeWhile (· != '_')).all Char.isDigit && cs.contains '_' && !cs.contains ' ' && isParted cs

/-- An integer in base ten, without its sign. -/
def decimalInteger? (negative : Bool) (cs : List Char) : Option Data :=
  match wholeDigits cs with
  | some digits => some (integer negative (digitsValue 10 digits))
  | none => if isPartedInteger cs then some .invalid else none

/-- The power of ten written by an exponent. -/
def exponent? : List Char → Option Int
  | '-' :: r => (plainDigits Char.isDigit r).map fun ds => -(digitsValue 10 ds : Int)
  | '+' :: r => (plainDigits Char.isDigit r).map fun ds => (digitsValue 10 ds : Int)
  | r => (plainDigits Char.isDigit r).map fun ds => (digitsValue 10 ds : Int)

/-- A number in base ten, without its sign: an integer unless it has a point or an exponent. -/
def decimalNumber? (negative : Bool) (cs : List Char) : Option Data := do
  let isMark (c : Char) := c == 'e' || c == 'E'
  let mantissa := cs.takeWhile (!isMark ·)
  let marked := cs.dropWhile (!isMark ·)
  let pointed := mantissa.dropWhile (· != '.')
  if pointed.isEmpty && marked.isEmpty then decimalInteger? negative cs
  else
    let whole ← wholeDigits (mantissa.takeWhile (· != '.'))
    let fraction ← if pointed.isEmpty then some [] else plainDigits Char.isDigit (pointed.drop 1)
    let exponent ← if marked.isEmpty then some 0 else exponent? (marked.drop 1)
    match Binary64.Finite.ofDecimal? negative (digitsValue 10 (whole ++ fraction)) (exponent - fraction.length) with
    | some x => some (.float (.finite x))
    | none => some .invalid

/-- A number with a sign. -/
def signedNumber? (negative : Bool) : List Char → Option Data
  | ['i', 'n', 'f'] => some (.float (.infinite negative))
  | ['n', 'a', 'n'] => some (.float .nan)
  | cs => decimalNumber? negative cs

/-- A number. -/
def number? : List Char → Option Data
  | '+' :: r => signedNumber? false r
  | '-' :: r => signedNumber? true r
  | '0' :: 'x' :: r => basedInteger? 16 isHexDigit r
  | '0' :: 'o' :: r => basedInteger? 8 (fun c => '0' ≤ c && c ≤ '7') r
  | '0' :: 'b' :: r => basedInteger? 2 (fun c => c == '0' || c == '1') r
  | r => signedNumber? false r

/-- The number of days of a month. -/
def daysOf (year month : Nat) : Nat :=
  if month = 2 then
    if year % 4 = 0 && (year % 100 ≠ 0 || year % 400 = 0) then 29 else 28
  else if month = 4 || month = 6 || month = 9 || month = 11 then 30
  else 31

/-- What follows a date, if one stands here. -/
def afterDate? : List Char → Option (List Char)
  | a :: b :: c :: d :: '-' :: e :: f :: '-' :: g :: h :: r =>
    let year := digitsValue 10 [a, b, c, d]
    let month := digitsValue 10 [e, f]
    let day := digitsValue 10 [g, h]
    if [a, b, c, d, e, f, g, h].all Char.isDigit && 1 ≤ month && month ≤ 12 && 1 ≤ day && day ≤ daysOf year month then
      some r
    else none
  | _ => none

/-- What follows a time of day, if one stands here. Seconds may be left out; a leap second is allowed. -/
def afterTime? : List Char → Option (List Char)
  | a :: b :: ':' :: c :: d :: r =>
    if [a, b, c, d].all Char.isDigit && digitsValue 10 [a, b] < 24 && digitsValue 10 [c, d] < 60 then
      match r with
      | ':' :: e :: f :: r =>
        if [e, f].all Char.isDigit && digitsValue 10 [e, f] ≤ 60 then
          match r with
          | '.' :: r => if (r.takeWhile Char.isDigit).isEmpty then none else some (r.dropWhile Char.isDigit)
          | r => some r
        else none
      | r => some r
    else none
  | _ => none

/-- Whether a text is an offset from universal time, or no text at all. -/
def isOffset : List Char → Bool
  | [] => true
  | ['Z'] | ['z'] => true
  | [sign, a, b, ':', c, d] =>
    (sign == '+' || sign == '-') && [a, b, c, d].all Char.isDigit && digitsValue 10 [a, b] < 24 &&
      digitsValue 10 [c, d] < 60
  | _ => false

/-- Whether a text is a date, a time of day, or a date and a time with or without an offset. -/
def isDateOrTime (cs : List Char) : Bool :=
  match afterDate? cs with
  | some [] => true
  | some (c :: r) =>
    (c == 'T' || c == 't' || c == ' ') &&
      match afterTime? r with
      | some r => isOffset r
      | none => false
  | none => afterTime? cs == some []

/-- A character of an unquoted value: one that neither ends it nor begins something else. -/
def isScalarChar (c : Char) : Bool :=
  !(['=', ',', '[', ']', '{', '}', '#', ' ', '\t', '\r', '\n'].contains c)

/-- An unquoted value. -/
def scalarOf? (cs : List Char) : Option Data :=
  if cs = ['t', 'r', 'u', 'e'] then some (.bool true)
  else if cs = ['f', 'a', 'l', 's', 'e'] then some (.bool false)
  else if isDateOrTime cs then some (.record [("datetime", .string (String.ofList cs))])
  else number? cs

/-- Whether an unquoted value, or more of it, begins here. -/
def beginsScalar : List Char → Bool
  | c :: _ => isScalarChar c && c != '"' && c != '\''
  | [] => false

/-- The text of an unquoted value and the text after it. Blanks belong to a value, as between a date and a time, when more of
it follows them. -/
def scalarText : List Char → List Char × List Char
  | [] => ([], [])
  | c :: r =>
    if isScalarChar c || isSpace c && beginsScalar (skipSpace r) then withChars [c] (scalarText r)
    else ([], c :: r)

/-- An unquoted value and the text after it. -/
def scalar (cs : List Char) : Option (Data × List Char) :=
  let (text, rest) := scalarText cs
  (scalarOf? text).map fun d => (d, rest)

end SearchRules.Toml
