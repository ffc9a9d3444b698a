import CardShell.Calendar.Stamp
import CardShell.Text.Basic

/-!
What a directory tells about an entry, and the bits of attributes and open modes.
-/

set_option autoImplicit false

namespace CardShell

structure Attributes where
  bits : UInt8 := 0
  deriving DecidableEq, Repr, Inhabited

namespace Attributes

def readOnlyBit : UInt8 := 0x01

def hiddenBit : UInt8 := 0x02

def directoryBit : UInt8 := 0x10

def archiveBit : UInt8 := 0x20

def isReadOnly (a : Attributes) : Bool := a.bits &&& readOnlyBit != 0

def isHidden (a : Attributes) : Bool := a.bits &&& hiddenBit != 0

def isDirectory (a : Attributes) : Bool := a.bits &&& directoryBit != 0

end Attributes

structure OpenMode where
  bits : UInt8
  deriving DecidableEq, Repr, Inhabited

namespace OpenMode

def read : OpenMode := ⟨0x01⟩

def write : OpenMode := ⟨0x02⟩

def createNew : OpenMode := ⟨0x04⟩

def createAlways : OpenMode := ⟨0x08⟩

def openAlways : OpenMode := ⟨0x10⟩

/-- As `openAlways`, with the position at the end. -/
def append : OpenMode := ⟨0x30⟩

def union (a b : OpenMode) : OpenMode := ⟨a.bits ||| b.bits⟩

instance : Union OpenMode := ⟨union⟩

def contains (a b : OpenMode) : Bool := a.bits &&& b.bits == b.bits

end OpenMode

structure Entry where
  name : Text
  size : Nat
  stamp : Stamp
  attributes : Attributes
  deriving DecidableEq, Repr, Inhabited

namespace Entry

def isDirectory (e : Entry) : Bool := e.attributes.isDirectory

def text (e : Entry) : Text := if e.isDirectory then e.name ++ "/" else e.name

end Entry

end CardShell
