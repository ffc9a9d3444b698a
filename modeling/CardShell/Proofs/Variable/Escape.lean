import CardShell.Proofs.Variable.Substitution

/-!
Texts as they are shown, with a bar and a letter for each control character, and what expansion makes
of them. A text without bars and insertions is read back as it was; a bar in it is taken together
with the character behind it, so the text comes out changed or not at all. Two texts are shown alike
exactly if they are the same once a bar with a letter behind it is taken for the control character.
-/

set_option autoImplicit false

namespace CardShell.Expand

variable {vs : Variables} {r : Readings} {c d : Char} {inner s t u w : Text}

section Shown

/-- The letter that stands behind a bar for a control character. -/
def letter (c : Char) : Char := Char.ofNat (c.toNat + 0x40)

theorem forall_control {P : Char → Prop} (h : ∀ n < 0x20, P (Char.ofNat n)) (hc : c.toNat < 0x20) :
    P c :=
  Char.ofNat_toNat c ▸ h c.toNat hc

theorem toNat_letter (h : c.toNat < 0x20) : (letter c).toNat = c.toNat + 0x40 :=
  forall_control (P := fun c => (letter c).toNat = c.toNat + 0x40) (by decide) h

theorem controlChar_letter (h : c.toNat < 0x20) : controlChar (letter c) = c :=
  forall_control (P := fun c => controlChar (letter c) = c) (by decide) h

theorem escape_control (h : c.toNat < 0x20) (t : Text) :
    escape (c :: t) = '|' :: letter c :: escape t := by
  rw [escape, List.flatMap_cons, if_pos h]
  rfl

theorem escape_cons (h : 0x20 ≤ c.toNat) (t : Text) : escape (c :: t) = c :: escape t := by
  rw [escape, List.flatMap_cons, if_neg (Nat.not_lt.mpr h)]
  rfl

theorem escape_eq_nil_iff : escape s = [] ↔ s = [] := by
  cases s with
  | nil => exact iff_of_true rfl rfl
  | cons c s =>
    refine iff_of_false ?_ (List.cons_ne_nil c s)
    rcases Nat.lt_or_ge c.toNat 0x20 with hlt | hle
    · rw [escape_control hlt]
      exact List.cons_ne_nil _ _
    · rw [escape_cons hle]
      exact List.cons_ne_nil _ _

theorem escape_append (s t : Text) : escape (s ++ t) = escape s ++ escape t := List.flatMap_append

theorem mem_escape_iff : d ∈ escape s ↔
    (d ∈ s ∧ 0x20 ≤ d.toNat) ∨ ∃ c ∈ s, c.toNat < 0x20 ∧ (d = '|' ∨ d = letter c) := by
  unfold escape
  rw [List.mem_flatMap]
  constructor
  · rintro ⟨c, hc, hd⟩
    split at hd
    · exact Or.inr ⟨c, hc, ‹_›, List.mem_pair.mp hd⟩
    · obtain rfl := List.mem_singleton.mp hd
      exact Or.inl ⟨hc, by omega⟩
  · rintro (⟨hd, hle⟩ | ⟨c, hc, hlt, hd⟩)
    · refine ⟨d, hd, ?_⟩
      rw [if_neg (Nat.not_lt.mpr hle)]
      exact List.mem_singleton_self d
    · refine ⟨c, hc, ?_⟩
      rw [if_pos hlt]
      exact List.mem_pair.mpr hd

theorem le_of_mem_escape (h : d ∈ escape s) : 0x20 ≤ d.toNat := by
  rcases mem_escape_iff.mp h with ⟨_, hle⟩ | ⟨c, _, hlt, rfl | rfl⟩
  · exact hle
  · decide
  · rw [toNat_letter hlt]
    omega

/-- No bar and no letter ends an insertion. -/
theorem mem_escape_close_iff : '>' ∈ escape s ↔ '>' ∈ s := by
  rw [mem_escape_iff]
  constructor
  · rintro (⟨h, _⟩ | ⟨c, _, hlt, h | h⟩)
    · exact h
    · cases h
    · have hletter := toNat_letter hlt
      rw [← h] at hletter
      have hclose : '>'.toNat = 0x3E := rfl
      omega
  · exact fun h => Or.inl ⟨h, by decide⟩

end Shown

section Expansion

theorem joined_literal {f : Value → Except Error Text} (c : Char) (ps : List Piece) :
    joined vs f (.literal c :: ps) = (joined vs f ps).map (c :: ·) := by
  rw [joined, piece]
  cases joined vs f ps <;> rfl

theorem text_plain (hbar : c ≠ '|') (hopen : c ≠ '<') (t : Text) :
    text vs r (c :: t) = (text vs r t).map (c :: ·) := by
  rw [text, pieces_plain hbar hopen, joined_literal]
  rfl

theorem text_control (c : Char) (t : Text) :
    text vs r ('|' :: c :: t) = (text vs r t).map (controlChar c :: ·) := by
  rw [text, pieces_control, joined_literal]
  rfl

theorem text_escape (hbar : '|' ∉ s) (hopen : '<' ∉ s) : text vs r (escape s) = .ok s := by
  induction s with
  | nil => rfl
  | cons c s ih =>
    obtain ⟨hc, hbar⟩ := not_or.mp (mt List.mem_cons.mpr hbar)
    obtain ⟨hc', hopen⟩ := not_or.mp (mt List.mem_cons.mpr hopen)
    rcases Nat.lt_or_ge c.toNat 0x20 with hlt | hle
    · rw [escape_control hlt, text_control, ih hbar hopen, controlChar_letter hlt]
      rfl
    · rw [escape_cons hle, text_plain (Ne.symm hc) (Ne.symm hc'), ih hbar hopen]
      rfl

theorem exists_of_map_cons {x : Except Error Text} (h : x.map (c :: ·) = .ok w) :
    ∃ u, x = .ok u ∧ w = c :: u := by
  cases x with
  | error e => cases h
  | ok u =>
    cases h
    exact ⟨u, rfl, rfl⟩

theorem text_unclosed (h : '>' ∉ t) : text vs r ('<' :: t) = .error .badString := by
  rw [text, pieces_unclosed h]
  rfl

/-- The start of the text that was shown comes out differently, and no longer, and the rest of it
comes out for itself. -/
structure StartChanges (vs : Variables) (r : Readings) (start t v u : Text) : Prop where
  rest : text vs r (escape t) = .ok u
  length_le : v.length ≤ start.length
  ne : v ≠ start

namespace StartChanges

variable {start v : Text}

theorem length_lt (h : StartChanges vs r start t v u) : t.length < (start ++ t).length := by
  have hpos : start ≠ [] := by
    rintro rfl
    exact h.ne (List.length_eq_zero_iff.mp (Nat.le_zero.mp h.length_le))
  have := List.length_pos_iff.mpr hpos
  rw [List.length_append]
  omega

theorem append_ne (h : StartChanges vs r start t v u) (hu : u.length ≤ t.length) :
    (v ++ u).length ≤ (start ++ t).length ∧ v ++ u ≠ start ++ t := by
  have hle := h.length_le
  rw [List.length_append, List.length_append]
  refine ⟨Nat.add_le_add hle hu, fun he => h.ne ?_⟩
  have hlen := congrArg List.length he
  rw [List.length_append, List.length_append] at hlen
  exact (List.append_inj he (by omega)).1

/-- A bar is taken together with the character behind it, and these two do not come out again. -/
theorem of_bar (h : text vs r (escape ('|' :: s)) = .ok w) :
    ∃ start t v u, '|' :: s = start ++ t ∧ w = v ++ u ∧ StartChanges vs r start t v u := by
  rw [escape_cons (by decide)] at h
  cases s with
  | nil => cases h
  | cons c t =>
    rcases Nat.lt_or_ge c.toNat 0x20 with hlt | hle
    · have hletter := toNat_letter hlt
      have hbar : '|'.toNat = 0x7C := rfl
      have hopen : '<'.toNat = 0x3C := rfl
      have hplain : letter c ≠ '|' ∧ letter c ≠ '<' ∧ letter c ≠ c := by
        refine ⟨fun he => ?_, fun he => ?_, fun he => ?_⟩ <;> rw [he] at hletter <;> omega
      rw [escape_control hlt, text_control, text_plain hplain.1 hplain.2.1] at h
      obtain ⟨w, hw, rfl⟩ := exists_of_map_cons h
      obtain ⟨u, hu, rfl⟩ := exists_of_map_cons hw
      refine ⟨['|', c], t, ['|', letter c], u, rfl, rfl, hu, Nat.le_refl 2, fun he => ?_⟩
      exact hplain.2.2 (List.cons.inj (List.cons.inj he).2).1
    · rw [escape_cons hle, text_control] at h
      obtain ⟨u, hu, rfl⟩ := exists_of_map_cons h
      exact ⟨['|', c], t, [controlChar c], u, rfl, rfl, hu, Nat.le_succ 1, by simp⟩

/-- Without variables an insertion comes to one character at most. -/
theorem of_insertion (h : text [] r (escape ('<' :: s)) = .ok w) :
    ∃ start t v u, '<' :: s = start ++ t ∧ w = v ++ u ∧ StartChanges [] r start t v u := by
  rw [escape_cons (by decide)] at h
  by_cases hclose : '>' ∈ s
  · obtain ⟨inner, t, rfl, hinner⟩ := List.eq_append_cons_of_mem hclose
    rw [escape_append, escape_cons (by decide), text,
      pieces_insertion (mt mem_escape_close_iff.mp hinner), joined_cons_ok_iff] at h
    obtain ⟨v, u, hv, hu, rfl⟩ := h
    have hlen : v.length ≤ 1 := by
      rw [piece] at hv
      cases hi : integer? (escape inner) with
      | some i =>
        rw [hi] at hv
        cases hv
        exact Nat.le_refl 1
      | none =>
        rw [hi] at hv
        cases hv
        exact Nat.zero_le 1
    have hlt : v.length < ('<' :: (inner ++ ['>'])).length := by
      simp only [List.length_cons, List.length_append]
      omega
    refine ⟨'<' :: (inner ++ ['>']), t, v, u, by simp, rfl, hu, Nat.le_of_lt hlt, ?_⟩
    rintro rfl
    exact Nat.lt_irrefl _ hlt
  · rw [text_unclosed (mt mem_escape_close_iff.mp hclose)] at h
    cases h

end StartChanges

/-- What is put out is no longer than what was shown, and it is the same only if nothing in it had a
meaning of its own. The induction passes over a bar together with what stands behind it, and over a
whole insertion, which makes the text shorter where there are no variables. -/
theorem plain_of_text_escape (hvs : '<' ∈ s → vs = []) (h : text vs r (escape s) = .ok w) :
    w.length ≤ s.length ∧ (w = s → '|' ∉ s ∧ '<' ∉ s) := by
  induction hn : s.length using Nat.strongRecOn generalizing s w with
  | _ n ih =>
    subst hn
    have hchanges : (∃ start t v u, s = start ++ t ∧ w = v ++ u ∧ StartChanges vs r start t v u) →
        w.length ≤ s.length ∧ (w = s → '|' ∉ s ∧ '<' ∉ s) := by
      rintro ⟨start, t, v, u, rfl, rfl, hstart⟩
      obtain ⟨hlen, _⟩ := ih t.length hstart.length_lt
        (fun hm => hvs (List.mem_append_right start hm)) hstart.rest rfl
      obtain ⟨hle, hne⟩ := hstart.append_ne hlen
      exact ⟨hle, fun he => absurd he hne⟩
    cases s with
    | nil =>
      cases h
      exact ⟨Nat.le_refl 0, fun _ => ⟨List.not_mem_nil, List.not_mem_nil⟩⟩
    | cons c t =>
      by_cases hbar : c = '|'
      · subst hbar
        exact hchanges (StartChanges.of_bar h)
      · by_cases hopen : c = '<'
        · subst hopen
          obtain rfl := hvs List.mem_cons_self
          exact hchanges (StartChanges.of_insertion h)
        · have hkept : (text vs r (escape t)).map (c :: ·) = .ok w := by
            rcases Nat.lt_or_ge c.toNat 0x20 with hlt | hle
            · rw [escape_control hlt, text_control, controlChar_letter hlt] at h
              exact h
            · rw [escape_cons hle, text_plain hbar hopen] at h
              exact h
          obtain ⟨u, hu, rfl⟩ := exists_of_map_cons hkept
          obtain ⟨hle, hsame⟩ := ih t.length (Nat.lt_succ_self _)
            (fun hm => hvs (List.mem_cons_of_mem c hm)) hu rfl
          refine ⟨Nat.succ_le_succ hle, fun he => ?_⟩
          obtain ⟨hb, ho⟩ := hsame (List.cons.inj he).2
          exact ⟨List.not_mem_cons_of_ne_of_not_mem (Ne.symm hbar) hb,
            List.not_mem_cons_of_ne_of_not_mem (Ne.symm hopen) ho⟩

theorem text_escape_iff (hopen : '<' ∉ s) : text vs r (escape s) = .ok s ↔ '|' ∉ s :=
  ⟨fun h => ((plain_of_text_escape (fun hm => absurd hm hopen) h).2 rfl).1,
    fun hbar => text_escape hbar hopen⟩

end Expansion

section Alike

/-- Takes a bar with one of the letters behind it for the control character. -/
def unbar : Text → Text
  | '|' :: c :: t =>
    if 0x40 ≤ c.toNat ∧ c.toNat < 0x60 then Char.ofNat (c.toNat - 0x40) :: unbar t
    else '|' :: unbar (c :: t)
  | c :: t => c :: unbar t
  | [] => []

theorem exists_letter (hlow : 0x40 ≤ c.toNat) (hhigh : c.toNat < 0x60) :
    ∃ d, d.toNat < 0x20 ∧ letter d = c := by
  have hnumber : ∀ n < 0x20, (Char.ofNat n).toNat = n := by decide
  have hd := hnumber (c.toNat - 0x40) (by omega)
  refine ⟨Char.ofNat (c.toNat - 0x40), by omega, ?_⟩
  rw [letter, hd, Nat.sub_add_cancel hlow, Char.ofNat_toNat]

theorem unbar_letter (h : c.toNat < 0x20) (t : Text) :
    unbar ('|' :: letter c :: t) = c :: unbar t := by
  have hletter := toNat_letter h
  rw [unbar, if_pos (by omega), hletter, Nat.add_sub_cancel, Char.ofNat_toNat]

theorem unbar_bar (h : ¬ (0x40 ≤ c.toNat ∧ c.toNat < 0x60)) (t : Text) :
    unbar ('|' :: c :: t) = '|' :: unbar (c :: t) := by
  rw [unbar, if_neg h]

theorem unbar_cons (h : c ≠ '|') (t : Text) : unbar (c :: t) = c :: unbar t := by
  rw [unbar]
  exact fun d u hc _ => h hc

theorem unbar_of_not_mem (h : '|' ∉ s) : unbar s = s := by
  induction s with
  | nil => rfl
  | cons c s ih =>
    obtain ⟨hc, hs⟩ := not_or.mp (mt List.mem_cons.mpr h)
    rw [unbar_cons (Ne.symm hc), ih hs]

theorem unbar_escape (s : Text) : unbar (escape s) = unbar s := by
  fun_induction unbar s with
  | case1 c t hc ih =>
    obtain ⟨d, hd, rfl⟩ := exists_letter hc.1 hc.2
    have hbar : escape ('|' :: letter d :: t) = '|' :: letter d :: escape t := by
      rw [escape_cons (by decide), escape_cons (by omega)]
    rw [hbar, unbar_letter hd, ih, toNat_letter hd, Nat.add_sub_cancel, Char.ofNat_toNat]
  | case2 c t hc ih =>
    rw [escape_cons (by decide)]
    rcases Nat.lt_or_ge c.toNat 0x20 with hlt | hle
    · rw [escape_control hlt] at ih ⊢
      rw [unbar_bar (by decide), ih]
    · rw [escape_cons hle] at ih ⊢
      rw [unbar_bar hc, ih]
  | case3 c t hc ih =>
    by_cases hbar : c = '|'
    · subst hbar
      cases t with
      | nil => rfl
      | cons d t => exact absurd rfl (hc d t rfl)
    · rcases Nat.lt_or_ge c.toNat 0x20 with hlt | hle
      · rw [escape_control hlt, unbar_letter hlt, ih]
      · rw [escape_cons hle, unbar_cons hbar, ih]
  | case4 => rfl

theorem escape_congr (h : escape s = escape t) (c : Char) : escape (c :: s) = escape (c :: t) := by
  rcases Nat.lt_or_ge c.toNat 0x20 with hlt | hle
  · rw [escape_control hlt, escape_control hlt, h]
  · rw [escape_cons hle, escape_cons hle, h]

theorem escape_unbar (s : Text) : escape (unbar s) = escape s := by
  fun_induction unbar s with
  | case1 c t hc ih =>
    obtain ⟨d, hd, rfl⟩ := exists_letter hc.1 hc.2
    rw [toNat_letter hd, Nat.add_sub_cancel, Char.ofNat_toNat, escape_control hd, ih,
      escape_cons (by decide), escape_cons (by omega)]
  | case2 c t hc ih => exact escape_congr ih '|'
  | case3 c t hc ih => exact escape_congr ih c
  | case4 => rfl

theorem escape_eq_iff : escape s = escape t ↔ unbar s = unbar t :=
  ⟨fun h => by rw [← unbar_escape s, h, unbar_escape],
    fun h => by rw [← escape_unbar s, h, escape_unbar]⟩

end Alike

end CardShell.Expand
