import CardShell.Proofs.Variable.Reader

/-!
Where the reader of expressions stops the machine: exactly if it comes to a place where the token
it looks for next would end inside a character.
-/

set_option autoImplicit false

namespace CardShell.Expression

variable (word : Text → Except Error Int)

/-- The reader at work on `s` in front of `t` comes to `q` in front of `u`. -/
inductive Comes : Stage → Text → Stage → Text → Prop
  | here (s : Stage) (t : Text) : Comes s t s t
  | first {s q p : Stage} {t u w : Text} {rest : Int → Text → Except Halt Next}
    (hp : s.plan word t = .first q u rest) (h : Comes q u p w) : Comes s t p w
  | next {s q r p : Stage} {t u v x w : Text} {rest : Int → Text → Except Halt Next} {b : Int}
    (hp : s.plan word t = .first q u rest) (hq : whole word q u = .ok (b, v))
    (hr : rest b v = .ok (.go r x)) (h : Comes r x p w) : Comes s t p w

/-- As many bytes as the next token has would end inside a character. -/
def Stage.StopsAt : Stage → Text → Prop
  | sum, _ | product, _ => False
  | productRest _, t => EndsInside 1 t.trimStart ∨
    t.trimStart.head? ≠ some '*' ∧ t.trimStart.head? ≠ some '/' ∧ EndsInside 3 t.trimStart
  | sumRest _, t | signed, t | primary, t | bracket _, t => EndsInside 1 t.trimStart

theorem lookFor_cut {token : Text} {found : Text → Plan} {more : List (Text × (Text → Plan))}
    {otherwise : Plan} {t : Text} (h : EndsInside token.size t.trimStart) :
    lookFor ((token, found) :: more) otherwise t = .now (.error (.stopped .cutCharacter)) := by
  rw [lookFor, eat_cut h]

theorem lookFor_whole {token : Text} (found : Text → Plan) (more : List (Text × (Text → Plan)))
    (otherwise : Plan) {t : Text} (h : ¬ EndsInside token.size t.trimStart) :
    (∃ u, lookFor ((token, found) :: more) otherwise t = found u) ∨
      lookFor ((token, found) :: more) otherwise t = lookFor more otherwise t := by
  rw [lookFor]
  rcases eat_whole h with hx | ⟨s, r, _, _, hx⟩
  · rw [hx]
    exact Or.inr rfl
  · rw [hx]
    exact Or.inl ⟨r, rfl⟩

/-- Among tokens of one size that are followed by parts, only the look at the text can be cut. -/
theorem lookFor_cut_iff {n : Nat} {l : List (Text × (Text → Plan))} {otherwise : Plan} {t : Text}
    (hl : ∀ p ∈ l, p.1.size = n ∧ ∀ u, p.2 u ≠ .now (.error (.stopped .cutCharacter)))
    (h0 : l ≠ []) (ho : otherwise ≠ .now (.error (.stopped .cutCharacter))) :
    lookFor l otherwise t = .now (.error (.stopped .cutCharacter)) ↔ EndsInside n t.trimStart := by
  by_cases hc : EndsInside n t.trimStart
  · obtain ⟨⟨token, found⟩, more, rfl⟩ := List.exists_cons_of_ne_nil h0
    have hsize : token.size = n := (hl _ List.mem_cons_self).1
    exact iff_of_true (lookFor_cut (hsize ▸ hc)) hc
  · refine iff_of_false ?_ hc
    clear h0
    induction l with
    | nil => exact ho
    | cons p l ih =>
      obtain ⟨token, found⟩ := p
      obtain ⟨hsize, hfound⟩ := hl _ List.mem_cons_self
      rcases lookFor_whole found l otherwise (hsize ▸ hc) with ⟨u, hx⟩ | hx
      · rw [hx]
        exact hfound u
      · rw [hx]
        exact ih fun p hp => hl p (List.mem_cons_of_mem _ hp)

theorem operand_not_cut (t : Text) : operand word t ≠ .error (.stopped .cutCharacter) := by
  unfold operand
  dsimp only
  split
  · intro h
    cases h
  · cases word (t.trimStart.span fun c => !endsWord c).1 with
    | error e =>
      intro h
      cases h
    | ok a =>
      intro h
      cases h

/-- Only the capital letters have a letter as lower case, and it is another one. -/
theorem toLower_eq_iff {c : Char} (hc : c.toNat < 65) (d : Char) :
    d.toLower = c.toLower ↔ d = c := by
  have hlow : c.toLower = c := by
    refine dif_neg fun h => ?_
    have hle : 65 ≤ c.toNat := UInt32.le_iff_toNat_le.mp h.1
    omega
  rw [hlow]
  by_cases h : d.val ≥ 'A'.val ∧ d.val ≤ 'Z'.val
  · have hle : 65 ≤ d.toNat := UInt32.le_iff_toNat_le.mp h.1
    have hge : d.toNat ≤ 90 := UInt32.le_iff_toNat_le.mp h.2
    have hval : (d.val + ('a'.val - 'A'.val)).toNat = d.toNat + 32 := by
      rw [UInt32.toNat_add]
      exact Nat.mod_eq_of_lt (show d.toNat + 32 < 2 ^ 32 by omega)
    have hlower : d.toLower.toNat = d.toNat + 32 := (congrArg Char.toNat (dif_pos h)).trans hval
    constructor
    · rintro rfl
      omega
    · rintro rfl
      omega
  · have hsame : d.toLower = d := dif_neg h
    rw [hsame]

/-- A character that is not cut is the symbol looked for, or the reader stays. -/
theorem eat_symbol {c : Char} (hc : c.toNat < 65) (hs : c.utf8Size = 1) {t : Text}
    (h : ¬ EndsInside 1 t.trimStart) :
    eat [c] t = .ok (if t.trimStart.head? = some c then some t.trimStart.tail else none) := by
  unfold eat
  rw [Text.size_cons, Text.size_nil, hs]
  cases ht : t.trimStart with
  | nil => rfl
  | cons d r =>
    have hd : d.utf8Size ≤ 1 := by
      rw [ht, endsInside_cons_iff] at h
      omega
    have hrest : 1 - d.utf8Size = 0 := by
      have := d.utf8Size_pos
      omega
    have hfold : Text.sameFold [d] [c] = true ↔ d = c := by
      simp [Text.sameFold, Text.fold, toLower_eq_iff hc]
    rw [splitBytes?, if_pos hd, hrest, splitBytes?]
    simp only [bind, Except.bind, Option.map_some, Option.bind_some, hfold, List.head?_cons,
      Option.some.injEq, List.tail_cons]

theorem first_not_cut (q : Stage) (u : Text) (rest : Int → Text → Except Halt Next) :
    Plan.first q u rest ≠ .now (.error (.stopped .cutCharacter)) := nofun

theorem ok_not_cut (a : Int × Text) :
    Plan.now (.ok a) ≠ .now (.error (.stopped .cutCharacter)) := nofun

/-- Behind a factor the three bytes of the word are compared only if neither symbol is found. -/
theorem productRest_cut_iff (a : Int) (t : Text) :
    (Stage.productRest a).plan word t = .now (.error (.stopped .cutCharacter)) ↔
      (Stage.productRest a).StopsAt t := by
  by_cases hc : EndsInside 1 t.trimStart
  · exact iff_of_true (lookFor_cut hc) (Or.inl hc)
  · have hstar := eat_symbol (c := '*') (by decide) rfl hc
    have hslash := eat_symbol (c := '/') (by decide) rfl hc
    have hstops : (Stage.productRest a).StopsAt t ↔ t.trimStart.head? ≠ some '*' ∧
        t.trimStart.head? ≠ some '/' ∧ EndsInside 3 t.trimStart := or_iff_right hc
    rw [hstops, Stage.plan, lookFor, lookFor, hstar, hslash]
    by_cases h1 : t.trimStart.head? = some '*'
    · rw [if_pos h1]
      exact iff_of_false (first_not_cut _ _ _) fun h => h.1 h1
    · rw [if_neg h1]
      by_cases h2 : t.trimStart.head? = some '/'
      · rw [if_pos h2]
        exact iff_of_false (first_not_cut _ _ _) fun h => h.2.1 h2
      · rw [if_neg h2, and_iff_right h1, and_iff_right h2]
        refine lookFor_cut_iff ?_ (List.cons_ne_nil _ _) (ok_not_cut _)
        exact List.forall_mem_singleton.mpr ⟨rfl, fun u => first_not_cut _ u _⟩

theorem plan_cut_iff (s : Stage) (t : Text) :
    s.plan word t = .now (.error (.stopped .cutCharacter)) ↔ s.StopsAt t := by
  cases s with
  | sum => exact iff_of_false (first_not_cut _ _ _) id
  | product => exact iff_of_false (first_not_cut _ _ _) id
  | sumRest a =>
    refine lookFor_cut_iff ?_ (List.cons_ne_nil _ _) (ok_not_cut _)
    rw [List.forall_mem_cons, List.forall_mem_singleton]
    exact ⟨⟨rfl, fun u => first_not_cut _ u _⟩, ⟨rfl, fun u => first_not_cut _ u _⟩⟩
  | productRest a => exact productRest_cut_iff word a t
  | signed =>
    refine lookFor_cut_iff ?_ (List.cons_ne_nil _ _) (first_not_cut _ _ _)
    rw [List.forall_mem_cons, List.forall_mem_singleton]
    exact ⟨⟨rfl, fun u => first_not_cut _ u _⟩, ⟨rfl, fun u => first_not_cut _ u _⟩⟩
  | primary =>
    refine lookFor_cut_iff ?_ (List.cons_ne_nil _ _) (fun h => ?_)
    · exact List.forall_mem_singleton.mpr ⟨rfl, fun u => first_not_cut _ u _⟩
    · exact operand_not_cut word t (Plan.now.inj h)
  | bracket a =>
    refine lookFor_cut_iff ?_ (List.cons_ne_nil _ _) nofun
    exact List.forall_mem_singleton.mpr ⟨rfl, fun u => ok_not_cut _⟩

theorem Comes.cut {s q : Stage} {t u : Text} (h : Comes word s t q u) (hq : q.StopsAt u) :
    whole word s t = .error (.stopped .cutCharacter) := by
  induction h with
  | here s t => rw [whole_eq, (plan_cut_iff word s t).mpr hq, Plan.run]
  | first hp _ ih =>
    have hx := ih hq
    rw [whole_eq, hp, Plan.run, hx]
    rfl
  | next hp hb hr _ ih =>
    have hx := ih hq
    rw [whole_eq, hp, Plan.run, hb]
    simp only [bind, Except.bind]
    rw [hr]
    exact hx

theorem exists_comes {s : Stage} {t : Text}
    (h : whole word s t = .error (.stopped .cutCharacter)) :
    ∃ q u, Comes word s t q u ∧ q.StopsAt u := by
  induction hn : s.need t.length using Nat.strongRecOn generalizing s t with
  | _ n ih =>
    have hfits := fits_plan word s t
    rw [whole_eq] at h
    cases hp : s.plan word t with
    | now r =>
      rw [hp, Plan.run] at h
      rw [h] at hp
      exact ⟨s, t, .here s t, (plan_cut_iff word s t).mp hp⟩
    | first q u rest =>
      rw [hp] at h hfits
      obtain ⟨_, hlt, hrest⟩ := hfits
      have hq := fits_whole word q u
      rcases run_first_cases (whole word) q u rest with ⟨e, hx, hrun⟩ | ⟨b, v, hx, hnext⟩
      · rw [hrun] at h
        rw [h] at hx
        obtain ⟨p, w, hc, hs⟩ := ih _ (hn ▸ hlt) hx rfl
        exact ⟨p, w, .first hp hc, hs⟩
      · rw [hx] at hq
        have hb := hrest b v hq.1 hq.2
        rcases hnext with ⟨e, hr, hrun⟩ | ⟨a, w, hr, hrun⟩ | ⟨r, x, hr, hrun⟩
        · rw [hr] at hb
          obtain ⟨e, rfl⟩ := hb
          rw [hrun] at h
          cases h
        · rw [hrun] at h
          cases h
        · rw [hr] at hb
          rw [hrun] at h
          obtain ⟨p, w, hc, hs⟩ := ih _ (hn ▸ hb.2.1) h rfl
          exact ⟨p, w, .next hp hx hr hc, hs⟩

theorem whole_cut_iff (s : Stage) (t : Text) :
    whole word s t = .error (.stopped .cutCharacter) ↔
      ∃ q u, Comes word s t q u ∧ q.StopsAt u :=
  ⟨exists_comes word, fun ⟨_, _, h, hq⟩ => h.cut word hq⟩

theorem sum_eq_whole (t : Text) : sum word (fuelFor t) t = whole word .sum t := by
  have hfuel : Stage.need t.length .sum ≤ fuelFor t := by
    show 6 * t.length + 4 ≤ 6 * (t.length + 1)
    omega
  exact read_eq_whole word hfuel

theorem arithmetic_stop_iff (t : Text) (why : Stop) :
    arithmetic word t = .error (.stopped why) ↔
      why = .cutCharacter ∧ ∃ q u, Comes word .sum t q u ∧ q.StopsAt u := by
  have hfits := fits_whole word .sum t
  rw [← whole_cut_iff]
  unfold arithmetic
  rw [sum_eq_whole]
  cases hx : whole word .sum t with
  | error h =>
    rw [hx] at hfits
    cases h with
    | failed e => exact iff_of_false nofun fun h => nomatch h.2
    | stopped w =>
      obtain rfl : w = .cutCharacter := hfits w rfl
      constructor
      · rintro ⟨⟩
        exact ⟨rfl, rfl⟩
      · rintro ⟨rfl, -⟩
        rfl
  | ok p =>
    refine iff_of_false ?_ fun h => nomatch h.2
    simp only [bind, Except.bind]
    split
    · nofun
    · nofun

theorem ofExcept_ne_stopped {α : Type} (x : Except Error α) (why : Stop) :
    Halt.ofExcept x ≠ .error (.stopped why) := by
  cases x with
  | error e => nofun
  | ok a => nofun

/-- The reader of an expression comes to a place where the next token would end inside a
character. -/
def Cuts (vs : Variables) (r : Readings) (t : Text) : Prop :=
  t.trim.head? ≠ some '"' ∧
    ∃ q u, Comes (wordValue vs r) .sum t.trim q u ∧ q.StopsAt u

/-- An expression stops the machine exactly if it is no quoted text and is cut. -/
theorem evaluate_stop_iff (vs : Variables) (r : Readings) (t : Text) (why : Stop) :
    evaluate vs r t = .error (.stopped why) ↔ why = .cutCharacter ∧ Cuts vs r t := by
  have hcuts := arithmetic_stop_iff (wordValue vs r) t.trim why
  unfold evaluate Cuts
  split
  · rename_i u hu
    refine iff_of_false ?_ fun h => h.2.1 (by rw [hu]; rfl)
    cases Text.before? '"' u with
    | none =>
      dsimp only
      nofun
    | some inner => exact ofExcept_ne_stopped _ why
  · rename_i hu
    have hhead : t.trim.head? ≠ some '"' := by
      intro h
      obtain ⟨u, hu'⟩ := List.head?_eq_some_iff.mp h
      exact hu u hu'
    rw [and_iff_right hhead, ← hcuts]
    cases arithmetic (wordValue vs r) t.trim with
    | error h => simp only [Except.map, Except.error.injEq]
    | ok a => exact iff_of_false nofun nofun

/-- The reader never goes back. -/
theorem Comes.suffix {s q : Stage} {t u : Text} (h : Comes word s t q u) : u <:+ t := by
  induction h with
  | here s t => exact List.suffix_rfl
  | @first s q p t u w rest hp _ ih =>
    have hfits := fits_plan word s t
    rw [hp] at hfits
    exact ih.trans hfits.1
  | @next s q r p t u v x w rest b hp hq hr _ ih =>
    have hfits := fits_plan word s t
    rw [hp] at hfits
    have hv := fits_whole word q u
    rw [hq] at hv
    have hx := hfits.2.2 b v hv.1 hv.2
    rw [hr] at hx
    exact ih.trans hx.1

theorem not_endsInside_of_ascii {t : Text} (h : ∀ c ∈ t, c.utf8Size = 1) (n : Nat) :
    ¬ EndsInside n t := by
  rintro ⟨s, c, w, hw, hlt, hgt⟩
  have hone := h c (by rw [hw]; exact List.mem_append_right s List.mem_cons_self)
  omega

/-- No token ends inside a character of one byte, so a text of them is never cut. -/
theorem not_cuts_of_ascii {vs : Variables} {r : Readings} {t : Text}
    (h : ∀ c ∈ t, c.utf8Size = 1) : ¬ Cuts vs r t := by
  rintro ⟨_, q, u, hc, hq⟩
  have hmem : ∀ c ∈ u.trimStart, c.utf8Size = 1 := by
    intro c hcu
    have htrim : c ∈ t.trim := hc.suffix.subset ((suffix_trimStart u).subset hcu)
    have hstart : c ∈ t.trimStart.reverse :=
      (List.dropWhile_suffix Text.isBlank).subset (List.mem_reverse.mp htrim)
    exact h c ((suffix_trimStart t).subset (List.mem_reverse.mp hstart))
  have hnot : ∀ n, ¬ EndsInside n u.trimStart := not_endsInside_of_ascii hmem
  cases q with
  | sum => exact hq
  | product => exact hq
  | productRest a =>
    rcases hq with hq | ⟨_, _, hq⟩
    · exact hnot 1 hq
    · exact hnot 3 hq
  | sumRest a => exact hnot 1 hq
  | signed => exact hnot 1 hq
  | primary => exact hnot 1 hq
  | bracket a => exact hnot 1 hq

/-- An expression that starts with a character of more than one byte is always cut. -/
theorem cuts_of_leading {vs : Variables} {r : Readings} {t u : Text} {c : Char}
    (ht : t.trim = c :: u) (hc : 1 < c.utf8Size) (hb : Text.isBlank c = false) : Cuts vs r t := by
  have hstart : t.trim.trimStart = c :: u := by
    rw [ht]
    exact List.dropWhile_cons_of_neg (by rw [hb]; exact Bool.false_ne_true)
  constructor
  · rw [ht]
    intro h
    cases h
    exact absurd hc (by decide)
  · refine ⟨.signed, t.trim, .first rfl (.first rfl (.here _ _)), ?_⟩
    show EndsInside 1 t.trim.trimStart
    rw [hstart]
    exact endsInside_cons_iff.mpr (Or.inl hc)

end CardShell.Expression
