import CardShell.Calendar.DateTime

/-!
Directory stamps: a date word of 7 bits of year since 1980, 4 of month and 5 of day, and a time
word of 5 bits of hour, 6 of minute and 5 of half seconds.
-/

set_option autoImplicit false

namespace CardShell

structure Stamp where
  date : UInt16 := 0
  time : UInt16 := 0
  deriving DecidableEq, Repr, Inhabited

namespace Stamp

def year (s : Stamp) : Nat := s.date.toNat / 512 + 1980

def month (s : Stamp) : Nat := s.date.toNat / 32 % 16

def day (s : Stamp) : Nat := s.date.toNat % 32

def hour (s : Stamp) : Nat := s.time.toNat / 2048

def minute (s : Stamp) : Nat := s.time.toNat / 32 % 64

def second (s : Stamp) : Nat := s.time.toNat % 32 * 2

def toDateTime (s : Stamp) : DateTime := ⟨s.year, s.month, s.day, s.hour, s.minute, s.second⟩

/-- Years outside 1980 to 2107 go to the nearer end; other fields keep their low bits. -/
def ofDateTime (t : DateTime) : Stamp where
  date := UInt16.ofNat (min (t.year - 1980) 127 * 512 + t.month % 16 * 32 + t.day % 32)
  time := UInt16.ofNat (t.hour % 32 * 2048 + t.minute % 64 * 32 + t.second / 2 % 32)

end Stamp

end CardShell
