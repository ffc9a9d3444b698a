import CardShell.Text.Numeral

/-!
Broken-down times and the count of seconds since the start of 1970, without leap seconds.
`ofSeconds` takes whole years, then whole months, off the day count.
-/

set_option autoImplicit false

namespace CardShell

def isLeap (year : Nat) : Bool := (year % 4 == 0 && year % 100 != 0) || year % 400 == 0

def daysInYear (year : Nat) : Nat := if isLeap year then 366 else 365

def daysInMonth (year month : Nat) : Nat :=
  if month = 2 then (if isLeap year then 29 else 28)
  else if month = 4 ∨ month = 6 ∨ month = 9 ∨ month = 11 then 30
  else 31

theorem daysInYear_pos (year : Nat) : 0 < daysInYear year := by
  unfold daysInYear; split <;> decide

/-- The year that day `days` falls in, counted from the first day of `year`, and the day in it. -/
def takeYears (year days : Nat) : Nat × Nat :=
  if days < daysInYear year then (year, days)
  else takeYears (year + 1) (days - daysInYear year)
termination_by days
decreasing_by have := daysInYear_pos year; omega

/-- The month, from `month` on and at most 12, and the day in it, both counted from 1; `left` is
the number of months that may still be taken off. -/
def takeMonths (year : Nat) : (left month days : Nat) → Nat × Nat
  | 0, month, days => (month, days + 1)
  | left + 1, month, days =>
    if days < daysInMonth year month then (month, days + 1)
    else takeMonths year left (month + 1) (days - daysInMonth year month)

/-- Year, month and day of a day count from 1 January 1970. -/
def dateOfDays (days : Nat) : Nat × Nat × Nat :=
  let (year, rest) := takeYears 1970 days
  let (month, day) := takeMonths year 11 1 rest
  (year, month, day)

/-- `acc` and the values of `f` at `count` numbers from `first` on, added up. -/
def sumFrom (f : Nat → Nat) : (first count acc : Nat) → Nat
  | _, 0, acc => acc
  | first, count + 1, acc => sumFrom f (first + 1) count (acc + f first)

structure DateTime where
  year : Nat
  month : Nat
  day : Nat
  hour : Nat
  minute : Nat
  second : Nat
  deriving DecidableEq, Repr, Inhabited

namespace DateTime

def ofSeconds (seconds : Nat) : DateTime :=
  let (year, month, day) := dateOfDays (seconds / 86400)
  let rest := seconds % 86400
  ⟨year, month, day, rest / 3600, rest % 3600 / 60, rest % 60⟩

def clampedMonth (t : DateTime) : Nat := max 1 (min 12 t.month)

/-- Days from 1 January 1970 to the date; years before 1970 count as 1970. -/
def dayCount (t : DateTime) : Nat :=
  sumFrom daysInYear 1970 (t.year - 1970) 0
    + sumFrom (daysInMonth t.year) 1 (t.clampedMonth - 1) 0
    + (t.day - 1)

def toSeconds (t : DateTime) : Nat :=
  t.dayCount * 86400 + t.hour * 3600 + t.minute * 60 + t.second

def isValid (t : DateTime) : Bool :=
  1 ≤ t.month && t.month ≤ 12 && 1 ≤ t.day && t.day ≤ daysInMonth t.year t.month
    && t.hour < 24 && t.minute < 60 && t.second < 60

/-- What the months add to the weekday, for years that begin in March. -/
def monthOffsets : List Nat := [0, 3, 2, 5, 0, 3, 5, 1, 4, 6, 2, 4]

/-- 0 is Sunday. -/
def weekday (t : DateTime) : Nat :=
  let y := if t.clampedMonth < 3 then t.year - 1 else t.year
  (y + y / 4 - y / 100 + y / 400 + monthOffsets.getD (t.clampedMonth - 1) 0 + t.day) % 7

def dayNames : List Text := ["Sun", "Mon", "Tue", "Wed", "Thu", "Fri", "Sat"]

def monthNames : List Text :=
  ["Jan", "Feb", "Mar", "Apr", "May", "Jun", "Jul", "Aug", "Sep", "Oct", "Nov", "Dec"]

def two (n : Nat) : Text := Numeral.zeroPadded 2 n

def dateText (t : DateTime) : Text :=
  dayNames.getD t.weekday [] ++ "," ++ two t.day ++ " " ++ monthNames.getD (t.clampedMonth - 1) []

def timeText (t : DateTime) : Text := two t.hour ++ ":" ++ two t.minute ++ ":" ++ two t.second

def yearText (t : DateTime) : Text := Numeral.zeroPadded 4 t.year

def text (t : DateTime) : Text := t.dateText ++ " " ++ t.yearText ++ "." ++ t.timeText

end DateTime

end CardShell
