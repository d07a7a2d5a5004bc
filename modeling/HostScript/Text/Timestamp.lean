import HostScript.Text.Number

set_option autoImplicit false

namespace HostScript.Timestamp

structure Date where
  year : Nat
  month : Nat
  day : Nat

structure TimeOfDay where
  hour : Nat := 0
  minute : Nat := 0
  second : Nat := 0
  fraction : List Char := []

structure Zone where
  isWest : Bool := false
  minutes : Nat := 0

def isLeap (year : Nat) : Bool := year % 4 = 0 && (year % 100 ≠ 0 || year % 400 = 0)

def daysIn (year month : Nat) : Nat :=
  if month = 2 then (if isLeap year then 29 else 28)
  else if [4, 6, 9, 11].contains month then 30 else 31

def number? : List Char → Option (Nat × List Char)
  | a :: b :: rest =>
    if !isDigit a then none
    else if isDigit b then some ((a.toNat - 48) * 10 + (b.toNat - 48), rest)
    else some (a.toNat - 48, b :: rest)
  | [a] => if isDigit a then some (a.toNat - 48, []) else none
  | [] => none

def after? (c : Char) : List Char → Option (List Char)
  | d :: rest => if d = c then some rest else none
  | [] => none

def date? (cs : List Char) : Option (Date × List Char) := do
  let year := cs.takeWhile isDigit
  if year.length ≠ 4 then none
  let (month, rest) ← number? (← after? '-' (cs.drop 4))
  let (day, rest) ← number? (← after? '-' rest)
  let year := (Number.digits? 10 year).getD 0
  if month = 0 || 12 < month || day = 0 || daysIn year month < day then none
  return (⟨year, month, day⟩, rest)

def timeOfDay? (cs : List Char) : Option (TimeOfDay × List Char) := do
  let (hour, rest) ← number? cs
  let (minute, rest) ← number? (← after? ':' rest)
  let (second, rest) ← number? (← after? ':' rest)
  if 23 < hour || 59 < minute || 59 < second then none
  match rest with
  | p :: d :: _ =>
    if (p = '.' || p = ',') && isDigit d then
      let digits := (rest.drop 1).takeWhile isDigit
      return (⟨hour, minute, second, digits.take 9⟩, rest.drop (1 + digits.length))
    else return (⟨hour, minute, second, []⟩, rest)
  | _ => return (⟨hour, minute, second, []⟩, rest)

def zone? (cs : List Char) : Option Zone :=
  match cs with
  | ['Z'] => some {}
  | [sign, a, b, ':', c, d] =>
    if (sign = '+' || sign = '-') && [a, b, c, d].all isDigit then
      let hours := (Number.digits? 10 [a, b]).getD 0
      let minutes := (Number.digits? 10 [c, d]).getD 0
      if 24 < hours || 60 < minutes then none else some ⟨sign = '-', 60 * hours + minutes⟩
    else none
  | _ => none

def padded (width n : Nat) : String :=
  let cs := Nat.toDigits 10 n
  String.ofList (List.replicate (width - cs.length) '0' ++ cs)

def Date.text (d : Date) : String := padded 4 d.year ++ "-" ++ padded 2 d.month ++ "-" ++ padded 2 d.day

def TimeOfDay.text (t : TimeOfDay) : String :=
  let fraction := (t.fraction.reverse.dropWhile (· == '0')).reverse
  padded 2 t.hour ++ ":" ++ padded 2 t.minute ++ ":" ++ padded 2 t.second
    ++ if fraction.isEmpty then "" else "." ++ String.ofList fraction

/-- The distance of the zone and its name, which is the distance again where there is no name. -/
def Zone.text (z : Zone) : String :=
  let distance := (if z.isWest then "-" else "+") ++ padded 2 (z.minutes / 60) ++ padded 2 (z.minutes % 60)
  if z.minutes = 0 then "+0000 UTC" else distance ++ " " ++ distance

def text (d : Date) (t : TimeOfDay) (z : Zone) : String := d.text ++ " " ++ t.text ++ " " ++ z.text

/-- The text shown for a date alone, for a date and a time behind blanks, or for a date and a time
with a zone behind a letter. -/
def parse? (s : String) : Option String := do
  let (date, rest) ← date? s.toList
  match rest with
  | [] => return text date {} {}
  | c :: cs =>
    if c = 'T' || c = 't' then
      let (time, rest) ← timeOfDay? cs
      return text date time (← zone? rest)
    else if c = ' ' then
      let (time, rest) ← timeOfDay? (cs.dropWhile (· == ' '))
      if rest.isEmpty then return text date time {} else none
    else none

end HostScript.Timestamp
