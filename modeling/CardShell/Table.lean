/-!
Finite maps as lists of pairs. The view is `get?`; the order of the pairs means nothing.
-/

set_option autoImplicit false

namespace CardShell

abbrev Table (κ α : Type) := List (κ × α)

namespace Table

variable {κ α : Type} [DecidableEq κ]

def get? (k : κ) : Table κ α → Option α
  | [] => none
  | (l, a) :: t => if l = k then some a else get? k t

def erase (k : κ) (t : Table κ α) : Table κ α := t.filter fun p => p.1 ≠ k

def set (k : κ) (a : α) (t : Table κ α) : Table κ α := (k, a) :: erase k t

def has (k : κ) (t : Table κ α) : Bool := (get? k t).isSome

@[simp] theorem get?_nil (k : κ) : get? k ([] : Table κ α) = none := rfl

@[simp] theorem get?_erase_self (k : κ) (t : Table κ α) : get? k (erase k t) = none := by
  induction t with
  | nil => rfl
  | cons p t ih =>
    by_cases h : p.1 = k
    · simpa [erase, h] using ih
    · simpa [erase, h, get?] using ih

theorem erase_of_has {k : κ} {t : Table κ α} (h : has k t = false) : erase k t = t := by
  induction t with
  | nil => rfl
  | cons p t ih =>
    by_cases hp : p.1 = k
    · simp [has, get?, hp] at h
    · have ht : erase k t = t := ih (by simpa [has, get?, hp] using h)
      simpa [erase, hp] using ht

theorem get?_erase_of_ne {j k : κ} (h : j ≠ k) (t : Table κ α) :
    get? j (erase k t) = get? j t := by
  induction t with
  | nil => rfl
  | cons p t ih =>
    by_cases hp : p.1 = k
    · have : p.1 ≠ j := by rw [hp]; exact fun e => h e.symm
      simpa [erase, hp, get?, this, Ne.symm h] using ih
    · by_cases hj : p.1 = j
      · simp [erase, get?, hj, h]
      · simpa [erase, hp, get?, hj] using ih

@[simp] theorem get?_set_self (k : κ) (a : α) (t : Table κ α) : get? k (set k a t) = some a := by
  simp [set, get?]

theorem get?_set_of_ne {j k : κ} (h : j ≠ k) (a : α) (t : Table κ α) :
    get? j (set k a t) = get? j t := by
  simp [set, get?, Ne.symm h, get?_erase_of_ne h]

end Table

end CardShell
