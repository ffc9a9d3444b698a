/-!
Named entries, each with a value and the entries inside it. The view is `get?` by the path of names
from the top; `inside` is what lies below a path.
-/

set_option autoImplicit false

namespace CardShell

/-- An entry, what is inside it, and the entries listed after it. -/
inductive Forest (κ α : Type)
  | nil
  | cons (name : κ) (value : α) (inside rest : Forest κ α)
  deriving DecidableEq, Repr, Inhabited

namespace Forest

variable {κ α β : Type}

def isEmpty : Forest κ α → Bool
  | nil => true
  | cons .. => false

def values : Forest κ α → List α
  | nil => []
  | cons _ v _ r => v :: values r

def size : Forest κ α → Nat
  | nil => 0
  | cons _ _ i r => size i + size r + 1

def map (f : α → β) : Forest κ α → Forest κ β
  | nil => nil
  | cons n v i r => cons n (f v) (map f i) (map f r)

variable [DecidableEq κ]

def get? : List κ → Forest κ α → Option α
  | _, nil | [], _ => none
  | k :: p, cons n v i r =>
    if n = k then (if p = [] then some v else get? p i) else get? (k :: p) r

def inside : List κ → Forest κ α → Forest κ α
  | [], t => t
  | _, nil => nil
  | k :: p, cons n _ i r => if n = k then inside p i else inside (k :: p) r

/-- Puts an entry at a path, with `below` inside it: in place of the one there, or last at its level
if the entry above is there. -/
def put (a : α) : List κ → Forest κ α → (below : Forest κ α) → Forest κ α
  | [], t, _ => t
  | k :: p, nil, s => if p = [] then cons k a s nil else nil
  | k :: p, cons n v i r, s =>
    if n = k then (if p = [] then cons k a s r else cons n v (put a p i s) r)
    else cons n v i (put a (k :: p) r s)

def modify (f : α → α) : List κ → Forest κ α → Forest κ α
  | _, nil => nil
  | [], t => t
  | k :: p, cons n v i r =>
    if n = k then (if p = [] then cons n (f v) i r else cons n v (modify f p i) r)
    else cons n v i (modify f (k :: p) r)

def erase : List κ → Forest κ α → Forest κ α
  | _, nil => nil
  | [], t => t
  | k :: p, cons n v i r =>
    if n = k then (if p = [] then erase [k] r else cons n v (erase p i) r)
    else cons n v i (erase (k :: p) r)

variable (t : Forest κ α) {p q : List κ}

@[simp] theorem get?_empty (p : List κ) : get? p (nil : Forest κ α) = none := by
  cases p <;> rfl

@[simp] theorem get?_top : get? [] t = none := by
  cases t <;> rfl

theorem get?_cons (k n : κ) (v : α) (i r : Forest κ α) :
    get? (k :: p) (cons n v i r) =
      if n = k then (if p = [] then some v else get? p i) else get? (k :: p) r := rfl

theorem get?_append (hq : q ≠ []) : get? (p ++ q) t = get? q (inside p t) := by
  induction t generalizing p with
  | nil => cases p <;> simp [inside]
  | cons n v i r ihi ihr =>
    cases p with
    | nil => rfl
    | cons k p =>
      have hpq : p ++ q ≠ [] := by simp [hq]
      by_cases h : n = k
      · simpa [get?, inside, h, hpq] using ihi (p := p)
      · simpa [get?, inside, h] using ihr (p := k :: p)

theorem get?_modify (f : α → α) (p q : List κ) :
    get? q (modify f p t) = if q = p then (get? q t).map f else get? q t := by
  induction t generalizing p q with
  | nil => simp [modify]
  | cons n v i r ihi ihr =>
    cases p with
    | nil => cases q <;> simp [modify]
    | cons k p =>
      cases q with
      | nil => simp
      | cons l q =>
        by_cases hn : n = k
        · by_cases hp : p = []
          · by_cases hl : n = l <;> by_cases hq : q = [] <;> grind [modify, get?]
          · by_cases hl : n = l <;> by_cases hq : q = [] <;> grind [modify, get?]
        · by_cases hl : n = l <;> grind [modify, get?]

theorem get?_put_of_not_prefix (a : α) (s : Forest κ α) (h : ¬ p <+: q) :
    get? q (put a p t s) = get? q t := by
  induction t generalizing p q with
  | nil =>
    cases p with
    | nil => simp at h
    | cons k p =>
      cases q with
      | nil => simp
      | cons l q =>
        by_cases hp : p = []
        · have : k ≠ l := by rintro rfl; simp [hp] at h
          simp [put, hp, get?, this]
        · simp [put, hp]
  | cons n v i r ihi ihr =>
    cases p with
    | nil => simp at h
    | cons k p =>
      cases q with
      | nil => simp
      | cons l q =>
        rw [List.cons_prefix_cons] at h
        by_cases hn : n = k
        · by_cases hp : p = [] <;> by_cases hl : n = l <;> by_cases hq : q = [] <;>
            grind [put, get?]
        · have := ihr (p := k :: p) (q := l :: q) (by rwa [List.cons_prefix_cons])
          by_cases hl : n = l <;> grind [put, get?]

theorem get?_put_self (a : α) (s : Forest κ α) (k : κ) (h : p = [] ∨ (get? p t).isSome) :
    get? (p ++ [k]) (put a (p ++ [k]) t s) = some a := by
  induction t generalizing p with
  | nil =>
    cases p with
    | nil => simp [put, get?]
    | cons l p => simp at h
  | cons n v i r ihi ihr =>
    cases p with
    | nil =>
      have := ihr (p := []) (.inl rfl)
      by_cases hn : n = k <;> simp_all [put, get?]
    | cons l p =>
      have hp : p ++ [k] ≠ [] := by simp
      by_cases hn : n = l
      · have : p = [] ∨ (get? p i).isSome := by
          by_cases hp : p = []
          · exact .inl hp
          · simpa [get?, hn, hp] using h
        simpa [put, get?, hn] using ihi this
      · have : l :: p = [] ∨ (get? (l :: p) r).isSome := by simpa [get?, hn] using h
        simpa [put, get?, hn] using ihr this

theorem get?_erase (p q : List κ) (hp : p ≠ []) :
    get? q (erase p t) = if p <+: q then none else get? q t := by
  induction t generalizing p q with
  | nil => simp [erase]
  | cons n v i r ihi ihr =>
    cases p with
    | nil => simp at hp
    | cons k p =>
      cases q with
      | nil => simp
      | cons l q =>
        have hr := ihr (k :: p) (l :: q) (by simp)
        simp only [List.cons_prefix_cons] at hr ⊢
        by_cases hn : n = k
        · by_cases hp : p = []
          · by_cases hl : n = l <;> grind [erase, get?]
          · have hi := ihi p q hp
            by_cases hl : n = l <;> by_cases hq : q = [] <;> grind [erase, get?]
        · by_cases hl : n = l <;> grind [erase, get?]

end Forest

end CardShell
