/-!
Runs of bytes, stored packed, so that reading and changing a part costs little however long the
run is. What an operation does is said through the view `toList`.
-/

set_option autoImplicit false

namespace CardShell

structure Bytes where
  packed : ByteArray
  deriving Inhabited

namespace Bytes

instance : DecidableEq Bytes := fun a b =>
  match ByteArray.decEq a.packed b.packed with
  | isTrue h => isTrue (congrArg mk h)
  | isFalse h => isFalse fun e => h (congrArg packed e)

def ofList (l : List UInt8) : Bytes := ⟨⟨l.toArray⟩⟩

def toList (b : Bytes) : List UInt8 := b.packed.data.toList

instance : Repr Bytes := ⟨fun b => reprPrec b.toList⟩

def size (b : Bytes) : Nat := b.packed.size

/-- The byte at `i`; behind the end, 0. -/
def byteAt (b : Bytes) (i : Nat) : UInt8 := b.packed[i]?.getD 0

def slice (b : Bytes) (start count : Nat) : List UInt8 :=
  if start < b.size then (b.packed.extract start (min (start + count) b.size)).data.toList else []

def pushZeros : (n : Nat) → (a : ByteArray) → ByteArray
  | 0, a => a
  | n + 1, a => pushZeros n (a.push 0)

def extend (b : Bytes) (n : Nat) : Bytes := ⟨pushZeros (n - b.size) b.packed⟩

/-- The bytes with `l` in place from `offset` on, extended as needed. -/
def splice (b : Bytes) (offset : Nat) (l : List UInt8) : Bytes :=
  ⟨(ofList l).packed.copySlice 0 (b.extend offset).packed offset l.length⟩

@[simp] theorem toList_ofList (l : List UInt8) : (ofList l).toList = l := rfl

@[simp] theorem ofList_toList (b : Bytes) : ofList b.toList = b := rfl

@[simp] theorem size_ofList (l : List UInt8) : (ofList l).size = l.length := rfl

@[simp] theorem length_toList (b : Bytes) : b.toList.length = b.size := rfl

theorem toList_inj {a b : Bytes} : a.toList = b.toList ↔ a = b :=
  ⟨fun h => by rw [← ofList_toList a, h, ofList_toList], fun h => h ▸ rfl⟩

theorem byteAt_eq (b : Bytes) (i : Nat) : b.byteAt i = (b.toList[i]?).getD 0 := by
  unfold byteAt
  by_cases h : i < b.size
  · rw [getElem?_pos b.packed i h, List.getElem?_eq_getElem (by simpa using h)]
    rfl
  · rw [getElem?_neg b.packed i h, List.getElem?_eq_none (by simpa using h)]

theorem slice_eq (b : Bytes) (start count : Nat) :
    b.slice start count = (b.toList.drop start).take count := by
  unfold slice
  split
  · rw [ByteArray.data_extract, Array.toList_extract, List.extract_eq_take_drop]
    change (b.toList.drop start).take _ = _
    rw [List.take_eq_take_iff, List.length_drop, length_toList]
    omega
  · rw [List.drop_eq_nil_of_le (by rw [length_toList]; omega), List.take_nil]

theorem data_pushZeros (n : Nat) (a : ByteArray) :
    (pushZeros n a).data.toList = a.data.toList ++ List.replicate n 0 := by
  induction n generalizing a with
  | zero => simp [pushZeros]
  | succ n ih => simp [pushZeros, ih, List.replicate_succ]

theorem toList_extend (b : Bytes) (n : Nat) :
    (b.extend n).toList = b.toList ++ List.replicate (n - b.size) 0 :=
  data_pushZeros (n - b.size) b.packed

theorem size_extend (b : Bytes) (n : Nat) : (b.extend n).size = max n b.size := by
  rw [← length_toList, toList_extend, List.length_append, List.length_replicate, length_toList]
  omega

/-- A splice keeps what lies before and behind it; a gap before it is filled with zeros. -/
theorem toList_splice (b : Bytes) (offset : Nat) (l : List UInt8) :
    (b.splice offset l).toList =
      (b.extend offset).toList.take offset ++ l ++ b.toList.drop (offset + l.length) := by
  have h : (b.splice offset l).toList = (b.extend offset).toList.take offset ++ l ++
      (b.extend offset).toList.drop (offset + l.length) := by
    have hd : (b.extend offset).packed.data.size - (offset + l.length) =
        ((b.extend offset).toList.drop (offset + l.length)).length := by
      rw [List.length_drop, length_toList]; rfl
    simp only [splice, toList, ofList, ByteArray.copySlice, Array.toList_append,
      Array.toList_extract, List.extract_eq_take_drop, List.size_toArray, Nat.sub_zero,
      Nat.min_self, Nat.zero_add, List.drop_zero, List.take_length]
    rw [hd]
    exact congrArg _ (List.take_length ..)
  rw [h, toList_extend]
  congr 1
  by_cases hb : offset ≤ b.size
  · rw [Nat.sub_eq_zero_of_le hb]; simp
  · rw [List.drop_eq_nil_of_le, List.drop_eq_nil_of_le] <;> simp <;> omega

theorem byteAt_splice (b : Bytes) (offset : Nat) (l : List UInt8) (i : Nat) :
    (b.splice offset l).byteAt i =
      if offset ≤ i ∧ i < offset + l.length then (l[i - offset]?).getD 0 else b.byteAt i := by
  have hs := size_extend b offset
  rw [byteAt_eq, byteAt_eq, toList_splice, List.append_assoc, List.getElem?_append]
  simp only [List.length_take, length_toList, hs]
  split
  · rw [if_neg (by omega), List.getElem?_take_of_lt (by omega), toList_extend,
      List.getElem?_append]
    split
    · rfl
    · rename_i h1 h2
      rw [length_toList] at h2
      rw [List.getElem?_replicate, if_pos (by rw [length_toList]; omega),
        List.getElem?_eq_none (by rw [length_toList]; omega)]
      rfl
  · rw [List.getElem?_append]
    split
    · rw [if_pos (by omega)]
      congr 2
      omega
    · rw [if_neg (by omega), List.getElem?_drop]
      congr 2
      omega

end Bytes

end CardShell
