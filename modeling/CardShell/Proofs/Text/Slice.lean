import CardShell.Proofs.Text.Utf8

/-!
Texts by byte offsets. An offset is looked for from either end, and a text is cut at one; a cut that
would fall inside a character, or behind the end, is none. Offsets that were found, and lengths of
what a text begins with, are no such cuts.
-/

set_option autoImplicit false

namespace CardShell.Text

/-- What stands in front of byte `n` and what stands behind; `none` where that is no boundary. -/
def cutAt? : (n : Nat) → Text → Option (Text × Text)
  | 0, t => some ([], t)
  | _ + 1, [] => none
  | n + 1, c :: t =>
    if c.utf8Size ≤ n + 1 then
      (cutAt? (n + 1 - c.utf8Size) t).map fun (s, r) => (c :: s, r)
    else none

def upTo? (n : Nat) (t : Text) : Option Text := (cutAt? n t).map Prod.fst

def from? (n : Nat) (t : Text) : Option Text := (cutAt? n t).map Prod.snd

def between? (m n : Nat) (t : Text) : Option Text := do
  if n < m then none else upTo? (n - m) (← from? m t)

/-- The offset of the first character of a kind. -/
def find? (p : Char → Bool) : Text → Option Nat
  | [] => none
  | c :: t => if p c then some 0 else (find? p t).map (c.utf8Size + ·)

/-- The offset of the last character of a kind. -/
def rfind? (p : Char → Bool) : Text → Option Nat
  | [] => none
  | c :: t => match rfind? p t with
    | some n => some (c.utf8Size + n)
    | none => if p c then some 0 else none

variable {s t r : Text} {n : Nat} {c : Char} {p : Char → Bool}

theorem cutAt?_zero (t : Text) : cutAt? 0 t = some ([], t) := by
  cases t <;> rfl

theorem cutAt?_append (s r : Text) : cutAt? s.size (s ++ r) = some (s, r) := by
  induction s with
  | nil => exact cutAt?_zero r
  | cons c s ih =>
    have hpos := c.utf8Size_pos
    obtain ⟨k, hk⟩ : ∃ k, c.utf8Size + size s = k + 1 := ⟨c.utf8Size + size s - 1, by omega⟩
    have hrest : k + 1 - c.utf8Size = size s := by omega
    rw [size_cons, hk, List.cons_append, cutAt?, if_pos (by omega), hrest, ih]
    rfl

theorem cutAt?_eq_some_iff : cutAt? n t = some (s, r) ↔ t = s ++ r ∧ s.size = n := by
  constructor
  · intro h
    induction t generalizing n s with
    | nil =>
      cases n with
      | zero =>
        cases h
        exact ⟨rfl, rfl⟩
      | succ n => cases h
    | cons c t ih =>
      cases n with
      | zero =>
        cases h
        exact ⟨rfl, rfl⟩
      | succ n =>
        rw [cutAt?] at h
        split at h
        · rename_i hle
          obtain ⟨⟨s', r'⟩, hcut, he⟩ := Option.map_eq_some_iff.mp h
          cases he
          obtain ⟨rfl, hsize⟩ := ih hcut
          refine ⟨rfl, ?_⟩
          rw [size_cons]
          omega
        · cases h
  · rintro ⟨rfl, rfl⟩
    exact cutAt?_append s r

theorem upTo?_append (s r : Text) : upTo? s.size (s ++ r) = some s := by
  rw [upTo?, cutAt?_append]
  rfl

theorem from?_append (s r : Text) : from? s.size (s ++ r) = some r := by
  rw [from?, cutAt?_append]
  rfl

/-- Behind a separator of one byte. -/
theorem from?_succ (hc : c.utf8Size = 1) (s r : Text) : from? (s.size + 1) (s ++ c :: r) = some r := by
  have h := from?_append (s ++ [c]) r
  rw [size_append, size_cons, hc, size_nil, List.append_assoc] at h
  exact h

theorem between?_append (s t r : Text) :
    between? s.size (s.size + t.size) (s ++ (t ++ r)) = some t := by
  have hle : ¬ s.size + t.size < s.size := by omega
  have hlen : s.size + t.size - s.size = t.size := by omega
  rw [between?, if_neg hle, from?_append, hlen]
  exact upTo?_append t r

/-- What a text ends with is read from the offset where it begins. -/
theorem from?_of_suffix (h : r <:+ t) : from? (t.size - r.size) t = some r := by
  obtain ⟨s, rfl⟩ := h
  rw [size_append, Nat.add_sub_cancel]
  exact from?_append s r

theorem find?_eq_none (h : ∀ c ∈ t, p c = false) : find? p t = none := by
  induction t with
  | nil => rfl
  | cons c t ih =>
    obtain ⟨hc, ht⟩ := List.forall_mem_cons.mp h
    simp [find?, hc, ih ht]

theorem find?_append (hs : ∀ d ∈ s, p d = false) (hc : p c = true) (r : Text) :
    find? p (s ++ c :: r) = some s.size := by
  induction s with
  | nil => simp [find?, hc]
  | cons d s ih =>
    obtain ⟨hd, hs⟩ := List.forall_mem_cons.mp hs
    simp [find?, hd, ih hs]

theorem rfind?_eq_none (h : ∀ c ∈ t, p c = false) : rfind? p t = none := by
  induction t with
  | nil => rfl
  | cons c t ih =>
    obtain ⟨hc, ht⟩ := List.forall_mem_cons.mp h
    simp [rfind?, hc, ih ht]

theorem rfind?_append (hr : ∀ d ∈ r, p d = false) (hc : p c = true) (s : Text) :
    rfind? p (s ++ c :: r) = some s.size := by
  induction s with
  | nil => simp [rfind?, rfind?_eq_none hr, hc]
  | cons d s ih =>
    rw [List.cons_append, rfind?, ih]
    rfl

/-- A text holds no character of a kind, or parts at the first one. -/
theorem find_cases (p : Char → Bool) (t : Text) :
    (∀ c ∈ t, p c = false) ∨
      ∃ s c r, t = s ++ c :: r ∧ (∀ d ∈ s, p d = false) ∧ p c = true := by
  induction t with
  | nil => exact Or.inl fun _ h => absurd h List.not_mem_nil
  | cons d t ih =>
    cases hd : p d with
    | true => exact Or.inr ⟨[], d, t, rfl, fun _ h => absurd h List.not_mem_nil, hd⟩
    | false =>
      rcases ih with hnone | ⟨s, c, r, rfl, hs, hc⟩
      · exact Or.inl (List.forall_mem_cons.mpr ⟨hd, hnone⟩)
      · exact Or.inr ⟨d :: s, c, r, rfl, List.forall_mem_cons.mpr ⟨hd, hs⟩, hc⟩

/-- In front of a byte below 128 there is a boundary, as it is a character by itself. -/
theorem exists_of_drop_bytes {b : UInt8} {bs : List UInt8} (h : t.bytes.drop n = b :: bs)
    (hb : b.toNat < 0x80) : ∃ s u, t = s ++ u ∧ size s = n ∧ bytes u = b :: bs := by
  induction t generalizing n with
  | nil =>
    rw [bytes, List.flatMap_nil, List.drop_nil] at h
    cases h
  | cons d t ih =>
    by_cases hn : n = 0
    · subst hn
      exact ⟨[], d :: t, rfl, rfl, h⟩
    · rw [bytes_cons, List.drop_append, String.length_utf8EncodeChar] at h
      rcases Nat.lt_or_ge n d.utf8Size with hlt | hle
      · -- Inside a character no byte is below 128.
        have hne : (String.utf8EncodeChar d).drop n ≠ [] := by
          rw [ne_eq, List.drop_eq_nil_iff, String.length_utf8EncodeChar]
          omega
        obtain ⟨a, u, hu⟩ := List.exists_cons_of_ne_nil hne
        rw [hu, List.cons_append] at h
        obtain ⟨rfl, _⟩ := List.cons.inj h
        have hmem : a ∈ String.utf8EncodeChar d := List.mem_of_mem_drop (hu ▸ List.mem_cons_self)
        rcases Nat.lt_or_ge d.toNat 0x80 with hd | hd
        · rw [utf8Size_of_lt hd] at hlt
          omega
        · obtain ⟨_, _, _, he, hall⟩ := utf8EncodeChar_of_le hd
          exact absurd (hall a (he ▸ hmem)) (Nat.not_le.mpr hb)
      · rw [List.drop_of_length_le (by rw [String.length_utf8EncodeChar]; exact hle),
          List.nil_append] at h
        obtain ⟨s, u, rfl, hs, hu⟩ := ih h
        refine ⟨d :: s, u, rfl, ?_, hu⟩
        rw [size_cons]
        omega

end CardShell.Text
