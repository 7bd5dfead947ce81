/-! Timestamps: a date, or a date and a time of day. The time follows the letter `T` and ends with
a zone, or it follows spaces and has no zone. Months, days and the parts of a time may have one
digit. -/

namespace MemLint.Yaml

/-- A number of one or two digits, and what follows. -/
def shortNumber? : List Char → Option (Nat × List Char)
  | c :: d :: cs =>
    if !c.isDigit then none
    else if d.isDigit then some (10 * (c.toNat - '0'.toNat) + (d.toNat - '0'.toNat), cs)
    else some (c.toNat - '0'.toNat, d :: cs)
  | [c] => if c.isDigit then some (c.toNat - '0'.toNat, []) else none
  | [] => none

/-- What follows a mark. -/
def after? (mark : Char) : List Char → Option (List Char)
  | c :: cs => if c = mark then some cs else none
  | [] => none

/-- A number of two digits that is at most `most`, and what follows. -/
def twoDigits? (most : Nat) (cs : List Char) : Option (List Char) := do
  let (n, rest) ← shortNumber? cs
  if rest.length + 2 = cs.length ∧ n ≤ most then some rest else none

def isLeap (year : Nat) : Bool := year % 4 = 0 && (year % 100 ≠ 0 || year % 400 = 0)

def daysIn (year month : Nat) : Nat :=
  if month = 2 then (if isLeap year then 29 else 28)
  else if month ∈ [4, 6, 9, 11] then 30
  else 31

/-- What follows a date of the calendar. The year has four digits. -/
def date? (cs : List Char) : Option (List Char) := do
  let year := cs.takeWhile Char.isDigit
  if year.length ≠ 4 then none
  let (month, cs) ← shortNumber? (← after? '-' (cs.drop 4))
  let (day, cs) ← shortNumber? (← after? '-' cs)
  let y := year.foldl (fun n c => 10 * n + (c.toNat - '0'.toNat)) 0
  if 1 ≤ month ∧ month ≤ 12 ∧ 1 ≤ day ∧ day ≤ daysIn y month then some cs else none

/-- What follows a part of a second, which may be missing. -/
def afterFraction : List Char → List Char
  | c :: d :: cs =>
    if (c = '.' ∨ c = ',') ∧ d.isDigit then cs.dropWhile Char.isDigit else c :: d :: cs
  | cs => cs

/-- What follows a time of day. -/
def time? (cs : List Char) : Option (List Char) := do
  let (hour, cs) ← shortNumber? cs
  let (minute, cs) ← shortNumber? (← after? ':' cs)
  let (second, cs) ← shortNumber? (← after? ':' cs)
  if hour < 24 ∧ minute < 60 ∧ second < 60 then some (afterFraction cs) else none

/-- What follows a zone: `Z`, or a sign, hours and minutes. -/
def zone? : List Char → Option (List Char)
  | [] => none
  | c :: cs =>
    if c = 'Z' then some cs
    else if c = '+' ∨ c = '-' then do twoDigits? 60 (← after? ':' (← twoDigits? 24 cs))
    else none

def isTimestamp (cs : List Char) : Bool :=
  match date? cs with
  | none => false
  | some [] => true
  | some (c :: rest) =>
    if c = 'T' ∨ c = 't' then (time? rest).bind zone? == some []
    else if c = ' ' then time? (rest.dropWhile (· = ' ')) == some []
    else false

end MemLint.Yaml
