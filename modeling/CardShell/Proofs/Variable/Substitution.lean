import CardShell.Proofs.Variable.Numeral
import Mathlib.Logic.Relation

/-!
Expansion of texts by rules. A derivation says which variables are inserted and how deep templates
nest in it; a text is expanded exactly if there is one that nests no deeper than the limit. A loop
that counts the depth up while it goes through the text comes to the same. A text from which
templates lead round in a circle has no derivation of any depth.
-/

set_option autoImplicit false

namespace CardShell.Expand

variable {vs : Variables} {r : Readings} {c : Char} {inner label s t u w : Text} {n : Nat}

section Pieces

theorem piecesFrom_inside (h : '>' ∉ inner) (acc t : Text) :
    piecesFrom (.inside acc) (inner ++ '>' :: t) =
      .insertion (acc.reverse ++ inner) :: piecesFrom .outside t := by
  induction inner generalizing acc with
  | nil => rw [List.nil_append, piecesFrom, if_pos rfl, List.append_nil]
  | cons c inner ih =>
    obtain ⟨hc, hinner⟩ := not_or.mp (mt List.mem_cons.mpr h)
    rw [List.cons_append, piecesFrom, if_neg (Ne.symm hc), ih hinner, List.reverse_cons,
      List.append_assoc, List.singleton_append]

theorem piecesFrom_unclosed (h : '>' ∉ t) (acc : Text) :
    piecesFrom (.inside acc) t = [.broken] := by
  induction t generalizing acc with
  | nil => rfl
  | cons c t ih =>
    obtain ⟨hc, ht⟩ := not_or.mp (mt List.mem_cons.mpr h)
    rw [piecesFrom, if_neg (Ne.symm hc), ih ht]

theorem pieces_plain (hbar : c ≠ '|') (hopen : c ≠ '<') (t : Text) :
    pieces (c :: t) = .literal c :: pieces t := by
  rw [pieces, piecesFrom, if_neg hbar, if_neg hopen]
  rfl

theorem pieces_control (c : Char) (t : Text) :
    pieces ('|' :: c :: t) = .literal (controlChar c) :: pieces t := rfl

theorem pieces_insertion (h : '>' ∉ inner) (t : Text) :
    pieces ('<' :: (inner ++ '>' :: t)) = .insertion inner :: pieces t :=
  piecesFrom_inside h [] t

theorem pieces_unclosed (h : '>' ∉ t) : pieces ('<' :: t) = [.broken] := piecesFrom_unclosed h []

/-- A text taken apart from its start: a bar goes with the character behind it, and what stands
between `<` and the next `>` is inserted. -/
inductive Consists : Text → List Piece → Prop
  | nil : Consists [] []
  | plain {c : Char} {t : Text} {ps : List Piece} (hbar : c ≠ '|') (hopen : c ≠ '<')
    (h : Consists t ps) : Consists (c :: t) (.literal c :: ps)
  | control {t : Text} {ps : List Piece} (c : Char) (h : Consists t ps) :
    Consists ('|' :: c :: t) (.literal (controlChar c) :: ps)
  | insertion {inner t : Text} {ps : List Piece} (hinner : '>' ∉ inner) (h : Consists t ps) :
    Consists ('<' :: (inner ++ '>' :: t)) (.insertion inner :: ps)
  | bar : Consists ['|'] [.broken]
  | unclosed {t : Text} (h : '>' ∉ t) : Consists ('<' :: t) [.broken]

theorem Consists.eq {ps : List Piece} (h : Consists t ps) : ps = pieces t := by
  induction h with
  | nil => rfl
  | plain hbar hopen _ ih => rw [pieces_plain hbar hopen, ih]
  | control c _ ih => rw [pieces_control, ih]
  | insertion hinner _ ih => rw [pieces_insertion hinner, ih]
  | bar => rfl
  | unclosed h => exact (pieces_unclosed h).symm

theorem consists_pieces (t : Text) : Consists t (pieces t) := by
  induction hn : t.length using Nat.strongRecOn generalizing t with
  | _ n ih =>
    subst hn
    match t with
    | [] => exact .nil
    | c :: t =>
      by_cases hbar : c = '|'
      · subst hbar
        match t with
        | [] => exact .bar
        | d :: t => exact .control d (ih _ (by simp only [List.length_cons]; omega) t rfl)
      · by_cases hopen : c = '<'
        · subst hopen
          by_cases hclose : '>' ∈ t
          · obtain ⟨inner, u, rfl, hinner⟩ := List.eq_append_cons_of_mem hclose
            rw [pieces_insertion hinner]
            exact .insertion hinner (ih _ (by simp; omega) u rfl)
          · rw [pieces_unclosed hclose]
            exact .unclosed hclose
        · rw [pieces_plain hbar hopen]
          exact .plain hbar hopen (ih _ (by simp) t rfl)

end Pieces

section Rules

/-- The control character that a bar and `c` stand for. The characters from `@` on are numbered in
rows of 32, and `?` stands for the last one; any other character stands for itself, as does the bar. -/
inductive Controls : Char → Char → Prop
  | row {c : Char} (hlow : 0x40 ≤ c.toNat) (hhigh : c.toNat ≤ 0x7E) (hbar : c ≠ '|') :
    Controls c (Char.ofNat (c.toNat % 32))
  | delete : Controls '?' '\x7F'
  | bar : Controls '|' '|'
  | other {c : Char} (hrow : c.toNat < 0x40 ∨ 0x7E < c.toNat) (hc : c ≠ '?') : Controls c c

theorem controls_iff {d : Char} : Controls c d ↔ controlChar c = d := by
  have hle : ∀ e e' : Char, e ≤ e' ↔ e.toNat ≤ e'.toNat := fun e e' => UInt32.le_iff_toNat_le
  have heq : ∀ e e' : Char, e = e' ↔ e.toNat = e'.toNat := fun e e' =>
    ⟨congrArg Char.toNat, Text.char_eq_of_toNat⟩
  have hrow : ((('@' ≤ c ∧ c ≤ '_') ∨ (Char.ofNat 0x60 ≤ c ∧ c ≤ '\x7b') ∨ c = '\x7d' ∨ c = '~') ↔
      0x40 ≤ c.toNat ∧ c.toNat ≤ 0x7E ∧ c ≠ '|') := by
    rw [ne_eq, heq c '\x7d', heq c '~', heq c '|', hle, hle, hle, hle]
    show (64 ≤ c.toNat ∧ c.toNat ≤ 95 ∨ 96 ≤ c.toNat ∧ c.toNat ≤ 123 ∨ c.toNat = 125 ∨
      c.toNat = 126) ↔ 64 ≤ c.toNat ∧ c.toNat ≤ 126 ∧ ¬ c.toNat = 124
    omega
  unfold controlChar
  constructor
  · intro h
    cases h with
    | row hlow hhigh hbar =>
      have hc : c ≠ '?' := by
        rintro rfl
        exact absurd hlow (by decide)
      rw [if_neg hc, if_pos (hrow.mpr ⟨hlow, hhigh, hbar⟩)]
    | delete => rfl
    | bar => rfl
    | other hout hc =>
      rw [if_neg hc, if_neg]
      intro h
      have := hrow.mp h
      omega
  · rintro rfl
    split
    · rename_i hc
      subst hc
      exact .delete
    · rename_i hc
      split
      · rename_i h
        obtain ⟨hlow, hhigh, hbar⟩ := hrow.mp h
        exact .row hlow hhigh hbar
      · rename_i h
        by_cases hbar : c = '|'
        · subst hbar
          exact .bar
        · rw [hrow, not_and, not_and] at h
          exact .other (by by_contra; exact h (by omega) (by omega) hbar) hc

/-- The text of a value that is no template. -/
inductive HasText (r : Readings) : Value → Text → Prop
  | text (t : Text) : HasText r (.text t) t
  | number (n : Int) : HasText r (.number n) (Numeral.integer n)
  | code {c : CodeVariable} {t : Text} (h : c.read r = .ok t) : HasText r (.code c) t

/-- `Expands vs r n t s`: the text `t` expands to `s`, and templates nest `n` deep in that. -/
inductive Expands (vs : Variables) (r : Readings) : Nat → Text → Text → Prop
  | nil : Expands vs r 0 [] []
  | plain {n : Nat} {c : Char} {t s : Text} (hbar : c ≠ '|') (hopen : c ≠ '<')
    (h : Expands vs r n t s) : Expands vs r n (c :: t) (c :: s)
  | control {n : Nat} {c d : Char} {t s : Text} (hc : Controls c d) (h : Expands vs r n t s) :
    Expands vs r n ('|' :: c :: t) (d :: s)
  | code {n : Nat} {inner t s : Text} {i : Int} (hinner : '>' ∉ inner) (hi : Denotes inner i)
    (h : Expands vs r n t s) :
    Expands vs r n ('<' :: (inner ++ '>' :: t)) (Char.ofNat (i % 256).toNat :: s)
  | unknown {n : Nat} {inner t s : Text} (hinner : '>' ∉ inner) (hi : ∀ i, ¬ Denotes inner i)
    (hv : vs.get? inner = none) (h : Expands vs r n t s) :
    Expands vs r n ('<' :: (inner ++ '>' :: t)) s
  | value {n : Nat} {inner t s u : Text} {v : Variable} (hinner : '>' ∉ inner)
    (hi : ∀ i, ¬ Denotes inner i) (hv : vs.get? inner = some v) (hu : HasText r v.value u)
    (h : Expands vs r n t s) : Expands vs r n ('<' :: (inner ++ '>' :: t)) (u ++ s)
  | template {m n : Nat} {inner label t s u w : Text} (hinner : '>' ∉ inner)
    (hi : ∀ i, ¬ Denotes inner i) (hv : vs.get? inner = some ⟨label, .template u⟩)
    (hu : Expands vs r m u w) (h : Expands vs r n t s) :
    Expands vs r (max (m + 1) n) ('<' :: (inner ++ '>' :: t)) (w ++ s)

/-- The text of any value; a template counts itself. -/
inductive Means (vs : Variables) (r : Readings) : Nat → Value → Text → Prop
  | plain {v : Value} {t : Text} (h : HasText r v t) : Means vs r 0 v t
  | template {n : Nat} {t s : Text} (h : Expands vs r n t s) : Means vs r (n + 1) (.template t) s

theorem joined_cons_ok_iff {f : Value → Except Error Text} {p : Piece} {ps : List Piece} :
    joined vs f (p :: ps) = .ok w ↔
      ∃ s t, piece vs f p = .ok s ∧ joined vs f ps = .ok t ∧ s ++ t = w := by
  rw [joined]
  cases piece vs f p with
  | error e => simp [bind, Except.bind]
  | ok s => cases joined vs f ps with
    | error e => simp [bind, Except.bind]
    | ok t => simp [bind, Except.bind, pure, Except.pure]

theorem piece_code {f : Value → Except Error Text} {i : Int} (hi : Denotes inner i) :
    piece vs f (.insertion inner) = .ok [codeChar i] := by
  rw [piece, integer?_eq_some_iff.mpr hi]

theorem piece_variable {f : Value → Except Error Text} (hi : ∀ i, ¬ Denotes inner i) :
    piece vs f (.insertion inner) = match vs.get? inner with
      | some v => f v.value
      | none => .ok [] := by
  have hnone := integer?_eq_none_iff.mpr hi
  cases hv : vs.get? inner with
  | none => simp only [piece, hnone, hv]
  | some v => simp only [piece, hnone, hv]

theorem valueWithin_of_hasText {v : Value} (h : HasText r v t) (depth : Nat) :
    valueWithin vs r depth v = .ok t := by
  cases h with
  | text => rw [valueWithin]
  | number => rw [valueWithin]
  | code h =>
    rw [valueWithin]
    exact h

/-- A value with a text is read by the rules; for a template that is one level further down. -/
theorem valueWithin_cases {depth : Nat} {v : Value} (h : valueWithin vs r depth v = .ok s) :
    HasText r v s ∨ ∃ k u, depth = k + 1 ∧ v = .template u ∧
      joined vs (valueWithin vs r k) (pieces u) = .ok s := by
  cases v with
  | text _ =>
    rw [valueWithin] at h
    cases h
    exact Or.inl (.text _)
  | number n =>
    rw [valueWithin] at h
    cases h
    exact Or.inl (.number n)
  | code c =>
    rw [valueWithin] at h
    exact Or.inl (.code h)
  | template u => cases depth with
    | zero =>
      rw [valueWithin] at h
      cases h
    | succ k =>
      rw [valueWithin] at h
      exact Or.inr ⟨k, u, rfl, rfl, h⟩

/-- A derivation is followed wherever as many templates may nest as do in it. -/
theorem Expands.joined (h : Expands vs r n t s) {depth : Nat} (hn : n ≤ depth) :
    joined vs (valueWithin vs r depth) (pieces t) = .ok s := by
  induction h generalizing depth with
  | nil => rfl
  | plain hbar hopen _ ih =>
    rw [pieces_plain hbar hopen, joined_cons_ok_iff]
    exact ⟨_, _, rfl, ih hn, rfl⟩
  | control hc _ ih =>
    rw [pieces_control, joined_cons_ok_iff, controls_iff.mp hc]
    exact ⟨_, _, rfl, ih hn, rfl⟩
  | code hinner hi _ ih =>
    rw [pieces_insertion hinner, joined_cons_ok_iff]
    exact ⟨_, _, piece_code hi, ih hn, rfl⟩
  | unknown hinner hi hv _ ih =>
    rw [pieces_insertion hinner, joined_cons_ok_iff]
    refine ⟨[], _, ?_, ih hn, rfl⟩
    rw [piece_variable hi, hv]
  | value hinner hi hv hu _ ih =>
    rw [pieces_insertion hinner, joined_cons_ok_iff]
    refine ⟨_, _, ?_, ih hn, rfl⟩
    rw [piece_variable hi, hv]
    exact valueWithin_of_hasText hu depth
  | @template m n inner label t s u w hinner hi hv _ _ ihu ih =>
    rw [pieces_insertion hinner, joined_cons_ok_iff]
    refine ⟨w, s, ?_, ih (by omega), rfl⟩
    obtain ⟨k, rfl⟩ : ∃ k, depth = k + 1 := ⟨depth - 1, by omega⟩
    rw [piece_variable hi, hv]
    exact ihu (by omega)

/-- Outer induction on the depth that is left, inner induction on the pieces. -/
theorem exists_expands {depth : Nat}
    (h : joined vs (valueWithin vs r depth) (pieces t) = .ok s) :
    ∃ n ≤ depth, Expands vs r n t s := by
  induction depth using Nat.strongRecOn generalizing t s with
  | _ depth ihdepth =>
    have hps := consists_pieces t
    generalize pieces t = ps at h hps
    induction hps generalizing s with
    | nil =>
      cases h
      exact ⟨0, Nat.zero_le _, .nil⟩
    | plain hbar hopen _ ih =>
      rw [joined_cons_ok_iff] at h
      obtain ⟨_, s, ⟨⟩, hs, rfl⟩ := h
      obtain ⟨n, hn, hs⟩ := ih hs
      exact ⟨n, hn, .plain hbar hopen hs⟩
    | control c _ ih =>
      rw [joined_cons_ok_iff] at h
      obtain ⟨_, s, ⟨⟩, hs, rfl⟩ := h
      obtain ⟨n, hn, hs⟩ := ih hs
      exact ⟨n, hn, .control (controls_iff.mpr rfl) hs⟩
    | @insertion inner t ps hinner _ ih =>
      rw [joined_cons_ok_iff] at h
      obtain ⟨w, s, hw, hs, rfl⟩ := h
      obtain ⟨n, hn, hd⟩ := ih hs
      by_cases hi : ∃ i, Denotes inner i
      · obtain ⟨i, hi⟩ := hi
        rw [piece_code hi] at hw
        cases hw
        exact ⟨n, hn, .code hinner hi hd⟩
      · have hi := not_exists.mp hi
        rw [piece_variable hi] at hw
        cases hv : vs.get? inner with
        | none =>
          rw [hv] at hw
          cases hw
          exact ⟨n, hn, .unknown hinner hi hv hd⟩
        | some v =>
          rw [hv] at hw
          rcases valueWithin_cases hw with hu | ⟨k, u, rfl, hu, hk⟩
          · exact ⟨n, hn, .value hinner hi hv hu hd⟩
          · obtain ⟨m, hm, hu'⟩ := ihdepth k (Nat.lt_succ_self k) hk
            obtain ⟨label, value⟩ := v
            cases hu
            exact ⟨max (m + 1) n, by omega, .template hinner hi hv hu' hd⟩
    | bar => cases h
    | unclosed _ => cases h

theorem joined_eq_ok_iff {depth : Nat} :
    joined vs (valueWithin vs r depth) (pieces t) = .ok s ↔ ∃ n ≤ depth, Expands vs r n t s :=
  ⟨exists_expands, fun ⟨_, hn, h⟩ => h.joined hn⟩

theorem value_eq_ok_iff {v : Value} :
    value vs r v = .ok s ↔ ∃ n ≤ maxDepth, Means vs r n v s := by
  constructor
  · intro h
    rcases valueWithin_cases h with hv | ⟨k, u, hk, rfl, hu⟩
    · exact ⟨0, Nat.zero_le _, .plain hv⟩
    · obtain ⟨n, hn, hu⟩ := exists_expands hu
      exact ⟨n + 1, by omega, .template hu⟩
  · rintro ⟨n, hn, h⟩
    cases h with
    | plain h => exact valueWithin_of_hasText h maxDepth
    | @template n t s h => exact h.joined (Nat.le_of_succ_le_succ hn)

end Rules

section Circles

/-- The text `t` inserts a variable whose value is the template `u`. -/
def Inserts (vs : Variables) (t u : Text) : Prop :=
  ∃ ps inner label, Consists t ps ∧ Piece.insertion inner ∈ ps ∧ (∀ i, ¬ Denotes inner i) ∧
    vs.get? inner = some ⟨label, .template u⟩

/-- What a text inserts is expanded on the way, and templates nest less deep in it. -/
theorem Expands.inserts (h : Expands vs r n t s) (hu : Inserts vs t u) :
    ∃ m < n, ∃ w, Expands vs r m u w := by
  obtain ⟨ps, name, label, hps, hmem, hname, hget⟩ := hu
  rw [hps.eq] at hmem
  clear hps
  induction h with
  | nil => cases hmem
  | plain hbar hopen _ ih =>
    rw [pieces_plain hbar hopen, List.mem_cons] at hmem
    exact ih (hmem.resolve_left nofun)
  | control _ _ ih =>
    rw [pieces_control, List.mem_cons] at hmem
    exact ih (hmem.resolve_left nofun)
  | @code _ inner _ _ i hinner hi _ ih =>
    rw [pieces_insertion hinner, List.mem_cons] at hmem
    rcases hmem with heq | hmem
    · exact absurd (Piece.insertion.inj heq ▸ hi) (hname i)
    · exact ih hmem
  | unknown hinner _ hv _ ih =>
    rw [pieces_insertion hinner, List.mem_cons] at hmem
    rcases hmem with heq | hmem
    · cases heq
      cases hv.symm.trans hget
    · exact ih hmem
  | value hinner _ hv hvalue _ ih =>
    rw [pieces_insertion hinner, List.mem_cons] at hmem
    rcases hmem with heq | hmem
    · cases heq
      cases hv.symm.trans hget
      cases hvalue
    · exact ih hmem
  | @template m n inner label' t s u' w hinner _ hv hu' _ _ ih =>
    rw [pieces_insertion hinner, List.mem_cons] at hmem
    rcases hmem with heq | hmem
    · cases heq
      cases hv.symm.trans hget
      exact ⟨m, by omega, w, hu'⟩
    · obtain ⟨k, hk, hw⟩ := ih hmem
      exact ⟨k, by omega, hw⟩

theorem Expands.inside (h : Expands vs r n t s) (hu : Relation.TransGen (Inserts vs) t u) :
    ∃ m < n, ∃ w, Expands vs r m u w := by
  induction hu with
  | single hu => exact h.inserts hu
  | tail _ hu ih =>
    obtain ⟨m, hm, w, hw⟩ := ih
    obtain ⟨k, hk, hw⟩ := hw.inserts hu
    exact ⟨k, hk.trans hm, hw⟩

/-- A derivation would have another inside it at each turn of the circle. -/
theorem not_expands_of_circle (hu : Relation.TransGen (Inserts vs) u u) :
    ¬ Expands vs r n u s := by
  induction n using Nat.strongRecOn generalizing s with
  | _ n ih =>
    intro h
    obtain ⟨m, hm, w, hw⟩ := h.inside hu
    exact ih m hm hw

theorem not_expands_of_reaches (ht : Relation.ReflTransGen (Inserts vs) t u)
    (hu : Relation.TransGen (Inserts vs) u u) : ¬ Expands vs r n t s := by
  intro h
  rcases Relation.reflTransGen_iff_eq_or_transGen.mp ht with rfl | ht
  · exact not_expands_of_circle hu h
  · obtain ⟨m, _, w, hw⟩ := h.inside ht
    exact not_expands_of_circle hu hw

end Circles

section Loop

theorem length_lt_of_dropWhile {p : Char → Bool} (h : t.dropWhile p = c :: u) :
    u.length < t.length := by
  have hle := (List.dropWhile_suffix p (l := t)).length_le
  rw [h, List.length_cons] at hle
  exact hle

mutual

/-- Goes through a text; `out` is what has come out of it so far, and `depth` templates have been
entered. -/
def scan (vs : Variables) (r : Readings) (depth : Nat) (out : Text) (t : Text) :
    Except Error Text :=
  match t with
  | [] => .ok out
  | c :: t =>
    if c = '|' then
      match t with
      | [] => .error .badString
      | d :: t => scan vs r depth (out ++ [controlChar d]) t
    else if c = '<' then
      match _h : t.dropWhile (· ≠ '>') with
      | [] => .error .badString
      | _ :: u =>
        let inner := t.takeWhile (· ≠ '>')
        match integer? inner with
        | some n => scan vs r depth (out ++ [codeChar n]) u
        | none => match vs.get? inner with
          | some v => do
            let w ← valueAt vs r depth v.value
            scan vs r depth (out ++ w) u
          | none => scan vs r depth out u
    else scan vs r depth (out ++ [c]) t
termination_by (maxDepth - depth, t.length + 1)
decreasing_by
  · exact .right _ (by simp)
  · exact .right _ (Nat.succ_lt_succ (Nat.lt_succ_of_lt (length_lt_of_dropWhile _h)))
  · exact .right _ (Nat.succ_pos _)
  · exact .right _ (Nat.succ_lt_succ (Nat.lt_succ_of_lt (length_lt_of_dropWhile _h)))
  · exact .right _ (Nat.succ_lt_succ (Nat.lt_succ_of_lt (length_lt_of_dropWhile _h)))
  · exact .right _ (Nat.lt_succ_self _)

/-- The text of a value, read where `depth` templates have been entered. -/
def valueAt (vs : Variables) (r : Readings) (depth : Nat) : Value → Except Error Text
  | .text t => .ok t
  | .number n => .ok (Numeral.integer n)
  | .code c => c.read r
  | .template t => if maxDepth ≤ depth then .error .badString else scan vs r (depth + 1) [] t
termination_by (maxDepth - depth, 0)
decreasing_by
  exact .left _ _ (by omega)

end

theorem dropWhile_inner (h : '>' ∉ inner) (t : Text) :
    (inner ++ '>' :: t).takeWhile (· ≠ '>') = inner ∧
      (inner ++ '>' :: t).dropWhile (· ≠ '>') = '>' :: t := by
  have hall : ∀ c ∈ inner, decide (c ≠ '>') = true := fun c hc =>
    decide_eq_true (ne_of_mem_of_not_mem hc h)
  constructor
  · rw [List.takeWhile_append_of_pos hall, List.takeWhile_cons_of_neg (by decide), List.append_nil]
  · rw [List.dropWhile_append_of_pos hall, List.dropWhile_cons_of_neg (by decide)]

theorem scan_plain (hbar : c ≠ '|') (hopen : c ≠ '<') (depth : Nat) (out t : Text) :
    scan vs r depth out (c :: t) = scan vs r depth (out ++ [c]) t := by
  rw [scan.eq_def]
  dsimp only
  rw [if_neg hbar, if_neg hopen]

theorem scan_insertion (h : '>' ∉ inner) (depth : Nat) (out t : Text) :
    scan vs r depth out ('<' :: (inner ++ '>' :: t)) = (do
      let w ← piece vs (valueAt vs r depth) (.insertion inner)
      scan vs r depth (out ++ w) t) := by
  obtain ⟨htake, hdrop⟩ := dropWhile_inner h t
  rw [scan.eq_def]
  dsimp only
  rw [if_neg (by decide), if_pos rfl]
  split
  · rename_i hnone
    cases hdrop.symm.trans hnone
  · rename_i u hu
    cases hdrop.symm.trans hu
    rw [htake, piece]
    cases integer? inner with
    | some i => rfl
    | none => cases vs.get? inner with
      | some v => rfl
      | none =>
        show scan vs r depth out t = scan vs r depth (out ++ []) t
        rw [List.append_nil]

theorem scan_unclosed (h : '>' ∉ t) (depth : Nat) (out : Text) :
    scan vs r depth out ('<' :: t) = .error .badString := by
  have hdrop : t.dropWhile (· ≠ '>') = [] :=
    List.dropWhile_eq_nil_iff.mpr fun c hc => decide_eq_true (ne_of_mem_of_not_mem hc h)
  rw [scan.eq_def]
  dsimp only
  rw [if_neg (by decide), if_pos rfl]
  split
  · rfl
  · rename_i hu
    cases hdrop.symm.trans hu

theorem map_joined_cons (f : Value → Except Error Text) (p : Piece) (ps : List Piece)
    (out : Text) : (joined vs f (p :: ps)).map (out ++ ·) = (do
      let w ← piece vs f p
      (joined vs f ps).map (out ++ w ++ ·)) := by
  rw [joined]
  cases piece vs f p with
  | error e => rfl
  | ok s => cases joined vs f ps with
    | error e => rfl
    | ok t => exact congrArg Except.ok (List.append_assoc out s t).symm

/-- What the loop puts out comes behind what it had put out already. -/
theorem scan_of_valueAt {depth left : Nat} (hv : valueAt vs r depth = valueWithin vs r left)
    (out t : Text) :
    scan vs r depth out t = (joined vs (valueWithin vs r left) (pieces t)).map (out ++ ·) := by
  have hps := consists_pieces t
  generalize pieces t = ps at hps
  induction hps generalizing out with
  | nil =>
    rw [scan, joined, Except.map, List.append_nil]
  | plain hbar hopen _ ih =>
    rw [scan_plain hbar hopen, map_joined_cons, ih]
    rfl
  | control c _ ih =>
    rw [scan, if_pos rfl, map_joined_cons]
    exact ih _
  | insertion hinner _ ih =>
    rw [scan_insertion hinner, map_joined_cons, hv]
    exact bind_congr fun w => ih _
  | bar => rw [scan, if_pos rfl]; rfl
  | unclosed h => exact scan_unclosed h depth out

/-- Counting the templates up to the limit is counting those that may still nest down from it. -/
theorem valueAt_eq {depth left : Nat} (h : depth + left = maxDepth) :
    valueAt vs r depth = valueWithin vs r left := by
  induction left generalizing depth with
  | zero =>
    funext v
    cases v with
    | template t => rw [valueAt, if_pos (by omega), valueWithin]
    | _ => rw [valueAt, valueWithin]
  | succ left ih =>
    have hnext := scan_of_valueAt (@ih (depth + 1) (by omega)) []
    funext v
    cases v with
    | template t =>
      rw [valueAt, if_neg (by omega), valueWithin, hnext]
      cases joined vs (valueWithin vs r left) (pieces t) <;> rfl
    | _ => rw [valueAt, valueWithin]

theorem scan_eq (vs : Variables) (r : Readings) (t : Text) : scan vs r 0 [] t = text vs r t := by
  rw [scan_of_valueAt (valueAt_eq (Nat.zero_add maxDepth)), text]
  show _ = joined vs (valueWithin vs r maxDepth) (pieces t)
  cases joined vs (valueWithin vs r maxDepth) (pieces t) <;> rfl

/-- The loop ends, with a text exactly if a derivation that nests at most 16 templates gives it, and
with an error if there is none; there is none where a circle of templates is reached. Where a value
is read instead of a text, a template is the first of the 16. -/
theorem expansion_by_rules (vs : Variables) (r : Readings) (t : Text) :
    scan vs r 0 [] t = text vs r t ∧
    (∀ s, text vs r t = .ok s ↔ ∃ n ≤ 16, Expands vs r n t s) ∧
    ((∃ e, text vs r t = .error e) ↔ ¬ ∃ s, ∃ n ≤ 16, Expands vs r n t s) ∧
    (∀ u, Relation.ReflTransGen (Inserts vs) t u → Relation.TransGen (Inserts vs) u u →
      ∃ e, text vs r t = .error e) ∧
    ∀ v, valueAt vs r 0 v = value vs r v ∧
      ∀ s, value vs r v = .ok s ↔ ∃ n ≤ 16, Means vs r n v s := by
  have hok : ∀ s, text vs r t = .ok s ↔ ∃ n ≤ 16, Expands vs r n t s := fun s => joined_eq_ok_iff
  have herror : (∃ e, text vs r t = .error e) ↔ ¬ ∃ s, ∃ n ≤ 16, Expands vs r n t s := by
    rw [← exists_congr hok]
    cases text vs r t with
    | error e => simp
    | ok s => simp
  refine ⟨scan_eq vs r t, hok, herror, ?_, ?_⟩
  · intro u ht hu
    rw [herror]
    rintro ⟨s, n, _, h⟩
    exact not_expands_of_reaches ht hu h
  · intro v
    exact ⟨congrFun (valueAt_eq (Nat.zero_add maxDepth)) v, fun s => value_eq_ok_iff⟩

end Loop

end CardShell.Expand
