import CardShell.Forest

/-!
Forests in which no two entries of one level share a name, and what a look-up finds after an entry
was put in with all that is inside it.
-/

set_option autoImplicit false

namespace CardShell.Forest

variable {κ α β : Type}

/-- The names at the top. -/
def names : Forest κ α → List κ
  | nil => []
  | cons n _ _ r => n :: names r

/-- At every level the names are different. -/
def Distinct : Forest κ α → Prop
  | nil => True
  | cons n _ i r => n ∉ names r ∧ Distinct i ∧ Distinct r

theorem names_map (f : α → β) (t : Forest κ α) : names (map f t) = names t := by
  induction t with
  | nil => rfl
  | cons n v i r _ ihr => simp only [map, names, ihr]

theorem distinct_map (f : α → β) {t : Forest κ α} (h : Distinct t) : Distinct (map f t) := by
  induction t with
  | nil => exact h
  | cons n v i r ihi ihr =>
    obtain ⟨hn, hi, hr⟩ := h
    exact ⟨by rwa [names_map], ihi hi, ihr hr⟩

variable [DecidableEq κ]

theorem get?_map (f : α → β) (p : List κ) (t : Forest κ α) :
    get? p (map f t) = (get? p t).map f := by
  induction t generalizing p with
  | nil => simp [map]
  | cons n v i r ihi ihr =>
    cases p with
    | nil => simp
    | cons k p =>
      simp only [map, get?_cons, ihi, ihr]
      split
      · split
        · rfl
        · rfl
      · rfl

theorem distinct_inside {t : Forest κ α} (h : Distinct t) (p : List κ) : Distinct (inside p t) := by
  induction t generalizing p with
  | nil => cases p <;> exact trivial
  | cons n v i r ihi ihr =>
    cases p with
    | nil => exact h
    | cons k p =>
      rw [inside]
      split
      · exact ihi h.2.1 p
      · exact ihr h.2.2 (k :: p)

theorem get?_eq_none_of_inside {t : Forest κ α} {p q : List κ} (h : (inside p t).isEmpty = true)
    (hq : q ≠ []) : get? (p ++ q) t = none := by
  rw [get?_append t hq]
  cases hi : inside p t with
  | nil => exact get?_empty q
  | cons n v i r => rw [hi] at h; cases h

theorem inside_put_self (a : α) (s t : Forest κ α) (k : κ) {p : List κ}
    (h : p = [] ∨ (get? p t).isSome) : inside (p ++ [k]) (put a (p ++ [k]) t s) = s := by
  induction t generalizing p with
  | nil =>
    rcases h with rfl | h
    · simp only [List.nil_append, put, if_pos, inside]
    · simp at h
  | cons n v i r ihi ihr =>
    cases p with
    | nil =>
      by_cases hn : n = k
      · simp only [List.nil_append, put, if_pos hn, if_pos, inside]
      · simpa only [List.nil_append, put, if_neg hn, inside] using ihr (p := []) (Or.inl rfl)
    | cons l p =>
      have hp : p ++ [k] ≠ [] := by simp
      by_cases hn : n = l
      · have hi : p = [] ∨ (get? p i).isSome := by
          by_cases hp : p = []
          · exact Or.inl hp
          · simpa [get?, hn, hp] using h
        simpa only [List.cons_append, put, if_pos hn, if_neg hp, inside] using ihi hi
      · have hr : l :: p = [] ∨ (get? (l :: p) r).isSome := by simpa [get?, hn] using h
        simpa only [List.cons_append, put, if_neg hn, inside] using ihr hr

/-- An entry put in below one that is there (or at the top) is found with what is inside it, and
nothing else has changed. -/
theorem get?_put (a : α) (s t : Forest κ α) (k : κ) {p : List κ}
    (h : p = [] ∨ (get? p t).isSome) (q : List κ) :
    get? q (put a (p ++ [k]) t s) =
      if q = p ++ [k] then some a
      else if p ++ [k] <+: q then get? (q.drop (p.length + 1)) s else get? q t := by
  split
  · rename_i hq
    rw [hq]
    exact get?_put_self t a s k h
  · rename_i hq
    split
    · rename_i hpre
      obtain ⟨r, rfl⟩ := hpre
      have hr : r ≠ [] := by rintro rfl; simp at hq
      have hd : (p ++ [k] ++ r).drop (p.length + 1) = r := List.drop_left' (by simp)
      rw [get?_append _ hr, inside_put_self a s t k h, hd]
    · rename_i hpre
      exact get?_put_of_not_prefix t a s hpre

theorem mem_names_put (a : α) (s t : Forest κ α) (p : List κ) {l : κ}
    (h : l ∈ names (put a p t s)) : l ∈ names t ∨ p = [l] := by
  induction t generalizing p with
  | nil =>
    cases p with
    | nil => simp [put, names] at h
    | cons k p =>
      by_cases hp : p = []
      · simp only [put, if_pos hp, names, List.mem_singleton] at h
        exact Or.inr (by rw [hp, h])
      · simp [put, hp, names] at h
  | cons n v i r _ ihr =>
    cases p with
    | nil => exact Or.inl h
    | cons k p =>
      by_cases hn : n = k
      · subst hn
        by_cases hp : p = []
        · simp only [put, if_pos, if_pos hp, names] at h
          exact Or.inl h
        · simp only [put, if_pos, if_neg hp, names] at h
          exact Or.inl h
      · simp only [put, if_neg hn, names, List.mem_cons] at h
        rcases h with h | h
        · exact Or.inl (List.mem_cons.mpr (Or.inl h))
        · rcases ihr (k :: p) h with h | h
          · exact Or.inl (List.mem_cons_of_mem n h)
          · exact Or.inr h

theorem distinct_put (a : α) {s t : Forest κ α} (hs : Distinct s) (ht : Distinct t) (p : List κ) :
    Distinct (put a p t s) := by
  induction t generalizing p with
  | nil =>
    cases p with
    | nil => exact ht
    | cons k p =>
      by_cases hp : p = []
      · simp only [put, if_pos hp]
        exact ⟨by simp [names], hs, ht⟩
      · simp only [put, if_neg hp]
        exact ht
  | cons n v i r ihi ihr =>
    obtain ⟨hn, hi, hr⟩ := ht
    cases p with
    | nil => exact ⟨hn, hi, hr⟩
    | cons k p =>
      by_cases hk : n = k
      · subst hk
        by_cases hp : p = []
        · simp only [put, if_pos, if_pos hp]
          exact ⟨hn, hs, hr⟩
        · simp only [put, if_pos, if_neg hp]
          exact ⟨hn, ihi hi p, hr⟩
      · simp only [put, if_neg hk]
        refine ⟨?_, hi, ihr hr (k :: p)⟩
        intro hm
        rcases mem_names_put a s r (k :: p) hm with hm | hm
        · exact hn hm
        · exact hk (List.cons.inj hm).1.symm

theorem names_modify (f : α → α) (p : List κ) (t : Forest κ α) :
    names (modify f p t) = names t := by
  induction t generalizing p with
  | nil => cases p <;> rfl
  | cons n v i r _ ihr =>
    cases p with
    | nil => rfl
    | cons k p =>
      by_cases hn : n = k
      · by_cases hp : p = []
        · simp only [modify, if_pos hn, if_pos hp, names]
        · simp only [modify, if_pos hn, if_neg hp, names]
      · simp only [modify, if_neg hn, names, ihr]

theorem distinct_modify (f : α → α) {t : Forest κ α} (h : Distinct t) (p : List κ) :
    Distinct (modify f p t) := by
  induction t generalizing p with
  | nil => cases p <;> exact h
  | cons n v i r ihi ihr =>
    obtain ⟨hn, hi, hr⟩ := h
    cases p with
    | nil => exact ⟨hn, hi, hr⟩
    | cons k p =>
      by_cases hk : n = k
      · by_cases hp : p = []
        · simp only [modify, if_pos hk, if_pos hp]
          exact ⟨hn, hi, hr⟩
        · simp only [modify, if_pos hk, if_neg hp]
          exact ⟨hn, ihi hi p, hr⟩
      · simp only [modify, if_neg hk]
        exact ⟨by rwa [names_modify], hi, ihr hr (k :: p)⟩

theorem mem_names_erase (p : List κ) (t : Forest κ α) {l : κ} (h : l ∈ names (erase p t)) :
    l ∈ names t := by
  induction t generalizing p with
  | nil => cases p <;> exact h
  | cons n v i r _ ihr =>
    cases p with
    | nil => exact h
    | cons k p =>
      by_cases hn : n = k
      · by_cases hp : p = []
        · simp only [erase, if_pos hn, if_pos hp] at h
          exact List.mem_cons_of_mem n (ihr [k] h)
        · simpa only [erase, if_pos hn, if_neg hp, names] using h
      · simp only [erase, if_neg hn, names, List.mem_cons] at h
        rcases h with h | h
        · exact List.mem_cons.mpr (Or.inl h)
        · exact List.mem_cons_of_mem n (ihr (k :: p) h)

theorem distinct_erase {t : Forest κ α} (h : Distinct t) (p : List κ) : Distinct (erase p t) := by
  induction t generalizing p with
  | nil => cases p <;> exact h
  | cons n v i r ihi ihr =>
    obtain ⟨hn, hi, hr⟩ := h
    cases p with
    | nil => exact ⟨hn, hi, hr⟩
    | cons k p =>
      by_cases hk : n = k
      · by_cases hp : p = []
        · simp only [erase, if_pos hk, if_pos hp]
          exact ihr hr [k]
        · simp only [erase, if_pos hk, if_neg hp]
          exact ⟨hn, ihi hi p, hr⟩
      · simp only [erase, if_neg hk]
        exact ⟨fun hm => hn (mem_names_erase (k :: p) r hm), hi, ihr hr (k :: p)⟩

end CardShell.Forest
