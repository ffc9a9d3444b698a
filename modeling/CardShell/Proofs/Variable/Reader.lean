import CardShell.Variable.Expression
import Mathlib.Data.List.TakeDrop

/-!
The reader of expressions, told in steps. At each stage it looks for some tokens in front of it, and
then is done or goes on to other stages. Fuel as much as it starts with is never spent, so the
reader obeys the equation of its steps without it.
-/

set_option autoImplicit false

namespace CardShell.Expression

/-- The first `n` bytes end inside a character. -/
def EndsInside (n : Nat) (t : Text) : Prop :=
  ∃ (s : Text) (c : Char) (r : Text), t = s ++ c :: r ∧ s.size < n ∧ n < s.size + c.utf8Size

theorem endsInside_cons_iff {n : Nat} {c : Char} {t : Text} :
    EndsInside (n + 1) (c :: t) ↔
      n + 1 < c.utf8Size ∨ c.utf8Size ≤ n + 1 ∧ EndsInside (n + 1 - c.utf8Size) t := by
  constructor
  · rintro ⟨s, d, r, ht, hlt, hgt⟩
    cases s with
    | nil =>
      cases ht
      rw [Text.size_nil, Nat.zero_add] at hgt
      exact Or.inl hgt
    | cons e s =>
      cases ht
      rw [Text.size_cons] at hlt hgt
      exact Or.inr ⟨by omega, s, d, r, rfl, by omega, by omega⟩
  · rintro (hgt | ⟨hle, s, d, r, rfl, hlt, hgt⟩)
    · exact ⟨[], c, t, rfl, Nat.succ_pos n, by rwa [Text.size_nil, Nat.zero_add]⟩
    · refine ⟨c :: s, d, r, rfl, ?_, ?_⟩
      · rw [Text.size_cons]
        omega
      · rw [Text.size_cons]
        omega

theorem splitBytes?_cut {n : Nat} {t : Text} (h : EndsInside n t) :
    splitBytes? n t = .error (.stopped .cutCharacter) := by
  induction n, t using splitBytes?.induct with
  | case1 t =>
    obtain ⟨s, c, r, _, hlt, _⟩ := h
    exact absurd hlt (Nat.not_lt_zero _)
  | case2 n =>
    obtain ⟨s, c, r, ht, _⟩ := h
    cases s <;> cases ht
  | case3 n c t hle ih =>
    have hrest : EndsInside (n + 1 - c.utf8Size) t := by
      rcases endsInside_cons_iff.mp h with hgt | ⟨_, hrest⟩
      · omega
      · exact hrest
    rw [splitBytes?, if_pos hle, ih hrest]
    rfl
  | case4 n c t hgt => rw [splitBytes?, if_neg hgt]

/-- Where no character is cut, there are not so many bytes, or a part of just that size. -/
theorem splitBytes?_whole {n : Nat} {t : Text} (h : ¬ EndsInside n t) :
    splitBytes? n t = .ok none ∨
      ∃ s r : Text, t = s ++ r ∧ s.size = n ∧ splitBytes? n t = .ok (some (s, r)) := by
  induction n, t using splitBytes?.induct with
  | case1 t => exact Or.inr ⟨[], t, rfl, rfl, by cases t <;> rfl⟩
  | case2 n => exact Or.inl rfl
  | case3 n c t hle ih =>
    have hrest : ¬ EndsInside (n + 1 - c.utf8Size) t :=
      fun hrest => h (endsInside_cons_iff.mpr (Or.inr ⟨hle, hrest⟩))
    rw [splitBytes?, if_pos hle]
    rcases ih hrest with hx | ⟨s, r, rfl, hs, hx⟩
    · rw [hx]
      exact Or.inl rfl
    · rw [hx]
      refine Or.inr ⟨c :: s, r, rfl, ?_, rfl⟩
      rw [Text.size_cons, hs]
      omega
  | case4 n c t hgt => exact absurd (endsInside_cons_iff.mpr (Or.inl (Nat.lt_of_not_le hgt))) h

theorem eat_cut {token t : Text} (h : EndsInside token.size t.trimStart) :
    eat token t = .error (.stopped .cutCharacter) := by
  unfold eat
  rw [splitBytes?_cut h]
  rfl

/-- Where no character is cut, the token is there and is passed, or the reader stays. -/
theorem eat_whole {token t : Text} (h : ¬ EndsInside token.size t.trimStart) :
    eat token t = .ok none ∨
      ∃ s r : Text, t.trimStart = s ++ r ∧ s.size = token.size ∧ eat token t = .ok (some r) := by
  unfold eat
  rcases splitBytes?_whole h with hx | ⟨s, r, ht, hs, hx⟩
  · rw [hx]
    exact Or.inl rfl
  · rw [hx]
    by_cases hsame : Text.sameFold s token = true
    · refine Or.inr ⟨s, r, ht, hs, ?_⟩
      simp only [bind, Except.bind, Option.bind_some, if_pos hsame]
    · refine Or.inl ?_
      simp only [bind, Except.bind, Option.bind_some, if_neg hsame]

theorem eat_error {token t : Text} {h : Halt} (he : eat token t = .error h) :
    h = .stopped .cutCharacter ∧ EndsInside token.size t.trimStart := by
  by_cases hc : EndsInside token.size t.trimStart
  · rw [eat_cut hc] at he
    cases he
    exact ⟨rfl, hc⟩
  · rcases eat_whole hc with hx | ⟨s, r, _, _, hx⟩
    · rw [hx] at he
      cases he
    · rw [hx] at he
      cases he

theorem suffix_trimStart (t : Text) : t.trimStart <:+ t := List.dropWhile_suffix _

/-- Behind a token that is passed, less is left. -/
theorem suffix_of_eat {c : Char} {token t u : Text} (he : eat (c :: token) t = .ok (some u)) :
    u <:+ t ∧ u.length < t.length := by
  have hc : ¬ EndsInside (Text.size (c :: token)) t.trimStart := by
    intro hc
    rw [eat_cut hc] at he
    cases he
  rcases eat_whole hc with hx | ⟨s, r, ht, hs, hx⟩
  · rw [hx] at he
    cases he
  · rw [hx] at he
    cases he
    have hpos : s ≠ [] := by
      rintro rfl
      rw [Text.size_nil, Text.size_cons] at hs
      have := c.utf8Size_pos
      omega
    have hlen := List.length_pos_iff.mpr hpos
    have hle := (suffix_trimStart t).length_le
    constructor
    · exact (ht ▸ List.suffix_append s u).trans (suffix_trimStart t)
    · rw [ht, List.length_append] at hle
      omega

/-- What the reader is about to read. A stage with a value has read so far. -/
inductive Stage
  | sum
  | sumRest (a : Int)
  | product
  | productRest (a : Int)
  | signed
  | primary
  /-- The end of what stands in brackets. -/
  | bracket (a : Int)

/-- What comes after a part has been read: the end of the stage, or another stage. -/
inductive Next
  | done (a : Int) (t : Text)
  | go (s : Stage) (t : Text)

/-- One step: the end of the stage, or a part to be read first. -/
inductive Plan
  | now (r : Except Halt (Int × Text))
  | first (s : Stage) (t : Text) (rest : Int → Text → Except Halt Next)

/-- Looks for tokens, one after the other. -/
def lookFor : List (Text × (Text → Plan)) → (otherwise : Plan) → Text → Plan
  | [], otherwise, _ => otherwise
  | (token, found) :: more, otherwise, t =>
    match eat token t with
    | .ok (some u) => found u
    | .ok none => lookFor more otherwise t
    | .error h => .now (.error h)

def Plan.run (read : Stage → Text → Except Halt (Int × Text)) : Plan → Except Halt (Int × Text)
  | now r => r
  | first s t rest => do
    let (b, u) ← read s t
    match ← rest b u with
    | .done a v => .ok (a, v)
    | .go s v => read s v

section

variable (word : Text → Except Error Int)

def operand (t : Text) : Except Halt (Int × Text) :=
  let (w, u) := t.trimStart.span fun c => !endsWord c
  if w = [] then .error (.failed .invalidParameter) else do .ok (← Halt.ofExcept (word w), u)

def Stage.plan : Stage → Text → Plan
  | sum, t => .first product t fun a t => .ok (.go (sumRest a) t)
  | sumRest a, t => lookFor
    [(['+'], fun t => .first product t fun b t => .ok (.go (sumRest (wrap (a + b))) t)),
      (['-'], fun t => .first product t fun b t => .ok (.go (sumRest (wrap (a - b))) t))]
    (.now (.ok (a, t))) t
  | product, t => .first signed t fun a t => .ok (.go (productRest a) t)
  | productRest a, t => lookFor
    [(['*'], fun t => .first signed t fun b t => .ok (.go (productRest (wrap (a * b))) t)),
      (['/'], fun t => .first signed t fun b t => do
        .ok (.go (productRest (← divide Int.tdiv a b)) t)),
      (['M', 'O', 'D'], fun t => .first signed t fun b t => do
        .ok (.go (productRest (← divide Int.tmod a b)) t))]
    (.now (.ok (a, t))) t
  | signed, t => lookFor
    [(['-'], fun t => .first signed t fun a t => .ok (.done (wrap (-a)) t)),
      (['+'], fun t => .first signed t fun a t => .ok (.done a t))]
    (.first primary t fun a t => .ok (.done a t)) t
  | primary, t => lookFor [(['('], fun t => .first sum t fun a t => .ok (.go (bracket a) t))]
    (.now (operand word t)) t
  | bracket a, t => lookFor [([')'], fun t => .now (.ok (a, t)))]
    (.now (.error (.failed .invalidParameter))) t

/-- The reader at work on a stage. -/
def read (fuel : Nat) : Stage → Text → Except Halt (Int × Text)
  | .sum, t => sum word fuel t
  | .sumRest a, t => sumRest word fuel a t
  | .product, t => product word fuel t
  | .productRest a, t => productRest word fuel a t
  | .signed, t => signed word fuel t
  | .primary, t => primary word fuel t
  | .bracket a, t => ((Stage.bracket a).plan word t).run fun _ _ => .error (.stopped .nesting)

theorem run_lookFor_cons (sub : Stage → Text → Except Halt (Int × Text)) (token : Text)
    (found : Text → Plan) (more : List (Text × (Text → Plan))) (otherwise : Plan) (t : Text) :
    (lookFor ((token, found) :: more) otherwise t).run sub = (do
      match ← eat token t with
      | some u => (found u).run sub
      | none => (lookFor more otherwise t).run sub) := by
  rw [lookFor]
  cases eat token t with
  | error h => rfl
  | ok u => cases u <;> rfl

theorem run_first_bind (sub : Stage → Text → Except Halt (Int × Text)) (s : Stage) (t : Text)
    (f : Int → Except Halt Int) (next : Int → Stage) :
    (Plan.first s t fun b u => do .ok (.go (next (← f b)) u)).run sub = (do
      let (b, u) ← sub s t
      sub (next (← f b)) u) := by
  rw [Plan.run]
  cases sub s t with
  | error h => rfl
  | ok p =>
    simp only [bind, Except.bind]
    cases f p.1 <;> rfl

theorem run_lookFor_nil (sub : Stage → Text → Except Halt (Int × Text)) (otherwise : Plan)
    (t : Text) : (lookFor [] otherwise t).run sub = otherwise.run sub := rfl

theorem run_first_go (sub : Stage → Text → Except Halt (Int × Text)) (s : Stage) (t : Text)
    (next : Int → Stage) :
    (Plan.first s t fun a u => .ok (.go (next a) u)).run sub = (do
      let (a, u) ← sub s t
      sub (next a) u) := rfl

theorem run_first_done (sub : Stage → Text → Except Halt (Int × Text)) (s : Stage) (t : Text) :
    (Plan.first s t fun a u => .ok (.done a u)).run sub = sub s t := by
  rw [Plan.run]
  cases sub s t <;> rfl

theorem read_bracket (fuel : Nat) (a : Int) (t : Text) :
    read word fuel (.bracket a) t = (do
      match ← eat [')'] t with
      | some u => .ok (a, u)
      | none => .error (.failed .invalidParameter)) := by
  rw [read, Stage.plan, run_lookFor_cons]
  rfl

/-- With fuel left, the reader takes one step. -/
theorem read_succ (fuel : Nat) (s : Stage) (t : Text) :
    read word (fuel + 1) s t = (s.plan word t).run (read word fuel) := by
  cases s with
  | sum => rfl
  | product => rfl
  | sumRest a =>
    have hread : read word (fuel + 1) (.sumRest a) t = sumRest word (fuel + 1) a t := rfl
    rw [hread, sumRest, Stage.plan, run_lookFor_cons, run_lookFor_cons]
    rfl
  | productRest a =>
    have hread : read word (fuel + 1) (.productRest a) t = productRest word (fuel + 1) a t := rfl
    rw [hread, productRest, Stage.plan]
    simp only [run_lookFor_cons, run_first_bind]
    rfl
  | signed =>
    have hread : read word (fuel + 1) .signed t = signed word (fuel + 1) t := rfl
    rw [hread, signed, Stage.plan]
    simp only [run_lookFor_cons, run_lookFor_nil, run_first_done]
    rfl
  | primary =>
    have hread : read word (fuel + 1) .primary t = primary word (fuel + 1) t := rfl
    rw [hread, primary, Stage.plan]
    simp only [run_lookFor_cons, run_lookFor_nil, run_first_go, read_bracket]
    rfl
  | bracket a =>
    rw [read_bracket, Stage.plan, run_lookFor_cons]
    rfl

/-- How many characters a stage takes at least. -/
def Stage.takes : Stage → Nat
  | sum | product | signed | primary => 1
  | sumRest _ | productRest _ | bracket _ => 0

/-- The fuel that is enough for a stage in front of `n` characters. -/
def Stage.need (n : Nat) : Stage → Nat
  | sum => 6 * n + 4
  | product => 6 * n + 3
  | signed => 6 * n + 2
  | sumRest _ | productRest _ | primary | bracket _ => 6 * n + 1

/-- A value and the end of `t`, with `k` characters taken at least, or an error; only a cut character
has stopped it, and fuel has not run out. -/
def Fits (k : Nat) (t : Text) : Except Halt (Int × Text) → Prop
  | .ok (_, u) => u <:+ t ∧ u.length + k ≤ t.length
  | .error h => ∀ why, h = .stopped why → why = .cutCharacter

/-- What is left for another stage to read is less, and what it takes makes up for the rest. -/
def Next.Fits (s : Stage) (t : Text) : Next → Prop
  | done _ u => u <:+ t ∧ u.length + s.takes ≤ t.length
  | go q u => u <:+ t ∧ q.need u.length < s.need t.length ∧
    u.length + s.takes ≤ t.length + q.takes

def Plan.Fits (s : Stage) (t : Text) : Plan → Prop
  | now r => Expression.Fits s.takes t r
  | first q u rest => u <:+ t ∧ q.need u.length < s.need t.length ∧
    ∀ b v, v <:+ u → v.length + q.takes ≤ u.length → match rest b v with
      | .ok next => next.Fits s t
      | .error h => ∃ e, h = .failed e

theorem fits_lookFor {s : Stage} {t : Text} {l : List (Text × (Text → Plan))} {otherwise : Plan}
    (hl : ∀ token found u, (token, found) ∈ l → eat token t = .ok (some u) →
      (found u).Fits s t)
    (ho : otherwise.Fits s t) : (lookFor l otherwise t).Fits s t := by
  induction l with
  | nil => exact ho
  | cons p l ih =>
    obtain ⟨token, found⟩ := p
    rw [lookFor]
    cases he : eat token t with
    | error h =>
      rw [(eat_error he).1]
      rintro why ⟨⟩
      rfl
    | ok o => cases o with
      | some u => exact hl token found u List.mem_cons_self he
      | none => exact ih fun token found u hm => hl token found u (List.mem_cons_of_mem _ hm)

theorem divide_cases (op : Int → Int → Int) (a b : Int) :
    divide op a b = .ok (op a b) ∨ divide op a b = .error (.failed .invalidParameter) := by
  unfold divide
  split
  · exact Or.inr rfl
  · exact Or.inl rfl

theorem need_bounds (s : Stage) (n : Nat) : 6 * n < s.need n ∧ s.need n ≤ 6 * n + 4 := by
  cases s with
  | sum | product | signed | sumRest a | productRest a | primary | bracket a =>
    simp only [Stage.need]
    omega

theorem takes_le_one (s : Stage) : s.takes ≤ 1 := by
  cases s with
  | sum | product | signed | sumRest a | productRest a | primary | bracket a =>
    simp only [Stage.takes]
    omega

/-- Behind a token any stage fits, and then any other where it has ended. -/
theorem fits_behind {s q : Stage} {c : Char} {token t u : Text}
    {rest : Int → Text → Except Halt Next} (he : eat (c :: token) t = .ok (some u))
    (hr : ∀ b v, (∃ a, rest b v = .ok (.done a v)) ∨ (∃ p, rest b v = .ok (.go p v)) ∨
      ∃ e, rest b v = .error (.failed e)) : (Plan.first q u rest).Fits s t := by
  obtain ⟨hsuf, hu⟩ := suffix_of_eat he
  have hq := need_bounds q u.length
  have hs := need_bounds s t.length
  have htakes := takes_le_one s
  refine ⟨hsuf, by omega, fun b v hv hlen => ?_⟩
  rcases hr b v with ⟨a, hb⟩ | ⟨p, hb⟩ | ⟨e, hb⟩
  · rw [hb]
    refine ⟨hv.trans hsuf, ?_⟩
    omega
  · have hp := need_bounds p v.length
    rw [hb]
    refine ⟨hv.trans hsuf, ?_⟩
    omega
  · rw [hb]
    exact ⟨e, rfl⟩

/-- What stands at the start of a text and does not end a word is taken. -/
theorem fits_operand (t : Text) : Fits 1 t (operand word t) := by
  have hsuf := suffix_trimStart t
  have hle := hsuf.length_le
  have hlen := congrArg List.length
    (List.takeWhile_append_dropWhile (l := t.trimStart) (p := fun c => !endsWord c))
  rw [List.length_append] at hlen
  unfold operand
  rw [List.span_eq_takeWhile_dropWhile]
  dsimp only
  split
  · nofun
  · rename_i hw
    have hpos := List.length_pos_iff.mpr hw
    cases word (t.trimStart.takeWhile fun c => !endsWord c) with
    | error e =>
      nofun
    | ok a =>
      refine ⟨(List.dropWhile_suffix _).trans hsuf, ?_⟩
      omega

theorem fits_plan (s : Stage) (t : Text) : (s.plan word t).Fits s t := by
  cases s with
  | sum =>
    refine ⟨List.suffix_rfl, Nat.lt_succ_self _, fun b v hsuf (hv : v.length + 1 ≤ t.length) => ?_⟩
    refine ⟨hsuf, ?_⟩
    show 6 * v.length + 1 < 6 * t.length + 4 ∧ v.length + 1 ≤ t.length + 0
    omega
  | product =>
    refine ⟨List.suffix_rfl, Nat.lt_succ_self _, fun b v hsuf (hv : v.length + 1 ≤ t.length) => ?_⟩
    refine ⟨hsuf, ?_⟩
    show 6 * v.length + 1 < 6 * t.length + 3 ∧ v.length + 1 ≤ t.length + 0
    omega
  | sumRest a =>
    refine fits_lookFor ?_ ⟨List.suffix_rfl, Nat.le_refl _⟩
    simp only [List.mem_cons, List.not_mem_nil, or_false, Prod.mk.injEq]
    rintro token found u (⟨rfl, rfl⟩ | ⟨rfl, rfl⟩) he
    · exact fits_behind he fun b v => Or.inr (Or.inl ⟨_, rfl⟩)
    · exact fits_behind he fun b v => Or.inr (Or.inl ⟨_, rfl⟩)
  | productRest a =>
    have hdivide : ∀ (op : Int → Int → Int) (b : Int) (v : Text), let r : Except Halt Next := do
          .ok (.go (.productRest (← divide op a b)) v)
        (∃ p, r = .ok (.go p v)) ∨ ∃ e, r = .error (.failed e) := by
      intro op b v
      dsimp only
      rcases divide_cases op a b with h | h
      · rw [h]
        exact Or.inl ⟨_, rfl⟩
      · rw [h]
        exact Or.inr ⟨_, rfl⟩
    refine fits_lookFor ?_ ⟨List.suffix_rfl, Nat.le_refl _⟩
    simp only [List.mem_cons, List.not_mem_nil, or_false, Prod.mk.injEq]
    rintro token found u (⟨rfl, rfl⟩ | ⟨rfl, rfl⟩ | ⟨rfl, rfl⟩) he
    · exact fits_behind he fun b v => Or.inr (Or.inl ⟨_, rfl⟩)
    · exact fits_behind he fun b v => Or.inr (hdivide _ b v)
    · exact fits_behind he fun b v => Or.inr (hdivide _ b v)
  | signed =>
    refine fits_lookFor ?_ ⟨List.suffix_rfl, Nat.lt_succ_self _, fun b v hsuf hv => ⟨hsuf, hv⟩⟩
    simp only [List.mem_cons, List.not_mem_nil, or_false, Prod.mk.injEq]
    rintro token found u (⟨rfl, rfl⟩ | ⟨rfl, rfl⟩) he
    · exact fits_behind he fun b v => Or.inl ⟨_, rfl⟩
    · exact fits_behind he fun b v => Or.inl ⟨_, rfl⟩
  | primary =>
    refine fits_lookFor ?_ (fits_operand word t)
    simp only [List.mem_cons, List.not_mem_nil, or_false, Prod.mk.injEq]
    rintro token found u ⟨rfl, rfl⟩ he
    exact fits_behind he fun b v => Or.inr (Or.inl ⟨_, rfl⟩)
  | bracket a =>
    refine fits_lookFor ?_ ?_
    · simp only [List.mem_cons, List.not_mem_nil, or_false, Prod.mk.injEq]
      rintro token found u ⟨rfl, rfl⟩ he
      obtain ⟨hsuf, hu⟩ := suffix_of_eat he
      exact ⟨hsuf, Nat.le_of_lt hu⟩
    · nofun

end

/-- A first part fails, or what follows it does, or that is the end, or another stage follows. -/
theorem run_first_cases (f : Stage → Text → Except Halt (Int × Text)) (q : Stage) (u : Text)
    (rest : Int → Text → Except Halt Next) :
    (∃ h, f q u = .error h ∧ (Plan.first q u rest).run f = .error h) ∨
    ∃ b v, f q u = .ok (b, v) ∧
      ((∃ h, rest b v = .error h ∧ (Plan.first q u rest).run f = .error h) ∨
      (∃ a w, rest b v = .ok (.done a w) ∧ (Plan.first q u rest).run f = .ok (a, w)) ∨
      ∃ p w, rest b v = .ok (.go p w) ∧ (Plan.first q u rest).run f = f p w) := by
  rw [Plan.run]
  cases f q u with
  | error h => exact Or.inl ⟨h, rfl, rfl⟩
  | ok bv =>
    obtain ⟨b, v⟩ := bv
    refine Or.inr ⟨b, v, rfl, ?_⟩
    simp only [bind, Except.bind]
    cases rest b v with
    | error h => exact Or.inl ⟨h, rfl, rfl⟩
    | ok next => cases next with
      | done a w => exact Or.inr (Or.inl ⟨a, w, rfl, rfl⟩)
      | go p w => exact Or.inr (Or.inr ⟨p, w, rfl, rfl⟩)

theorem Fits.weaken {k l : Nat} {t u : Text} {r : Except Halt (Int × Text)} (h : Fits k u r)
    (hsuf : u <:+ t) (hle : u.length + l ≤ t.length + k) : Fits l t r := by
  cases r with
  | error e => exact h
  | ok a =>
    obtain ⟨hs, hlen⟩ := h
    refine ⟨hs.trans hsuf, ?_⟩
    omega

theorem fits_run {f : Stage → Text → Except Halt (Int × Text)} {p : Plan} {s : Stage} {t : Text}
    (hp : p.Fits s t)
    (hf : ∀ q (u : Text), q.need u.length < s.need t.length → Fits q.takes u (f q u)) :
    Fits s.takes t (p.run f) := by
  cases p with
  | now r => exact hp
  | first q u rest =>
    obtain ⟨_, hlt, hrest⟩ := hp
    have hq := hf q u hlt
    rcases run_first_cases f q u rest with ⟨h, hx, hrun⟩ | ⟨b, v, hx, hnext⟩
    · rw [hx] at hq
      rw [hrun]
      exact hq
    · rw [hx] at hq
      have hb := hrest b v hq.1 hq.2
      rcases hnext with ⟨h, hr, hrun⟩ | ⟨a, w, hr, hrun⟩ | ⟨p, w, hr, hrun⟩
      · rw [hr] at hb
        obtain ⟨e, rfl⟩ := hb
        rw [hrun]
        nofun
      · rw [hr] at hb
        rw [hrun]
        exact hb
      · rw [hr] at hb
        obtain ⟨hw, hlt', hle⟩ := hb
        rw [hrun]
        exact (hf p w hlt').weaken hw hle

/-- Where another reader does the same on all that is smaller, the step comes to the same. -/
theorem run_congr {f g : Stage → Text → Except Halt (Int × Text)} {p : Plan} {s : Stage} {t : Text}
    (hp : p.Fits s t)
    (hf : ∀ q (u : Text), q.need u.length < s.need t.length → Fits q.takes u (f q u))
    (hfg : ∀ q (u : Text), q.need u.length < s.need t.length → f q u = g q u) :
    p.run f = p.run g := by
  cases p with
  | now r => rfl
  | first q u rest =>
    obtain ⟨_, hlt, hrest⟩ := hp
    have hq := hf q u hlt
    rw [Plan.run, Plan.run, ← hfg q u hlt]
    cases hx : f q u with
    | error h => rfl
    | ok bv =>
      obtain ⟨b, v⟩ := bv
      rw [hx] at hq
      have hb := hrest b v hq.1 hq.2
      simp only [bind, Except.bind]
      cases hr : rest b v with
      | error h => rfl
      | ok next => cases next with
        | done a w => rfl
        | go p w =>
          rw [hr] at hb
          exact hfg p w hb.2.1

variable (word : Text → Except Error Int)

/-- Fuel enough is never spent. -/
theorem fits_read {fuel : Nat} {s : Stage} {t : Text} (h : s.need t.length ≤ fuel) :
    Fits s.takes t (read word fuel s t) := by
  induction fuel generalizing s t with
  | zero =>
    have := need_bounds s t.length
    omega
  | succ fuel ih =>
    rw [read_succ]
    exact fits_run (fits_plan word s t) fun q u hq => ih (by omega)

theorem read_succ_eq {fuel : Nat} {s : Stage} {t : Text} (h : s.need t.length ≤ fuel) :
    read word (fuel + 1) s t = read word fuel s t := by
  induction fuel generalizing s t with
  | zero =>
    have := need_bounds s t.length
    omega
  | succ fuel ih =>
    rw [read_succ word (fuel + 1), read_succ word fuel]
    apply run_congr (fits_plan word s t)
    · exact fun q u hq => fits_read word (by omega)
    · exact fun q u hq => ih (by omega)

/-- What the reader comes to on a stage. -/
def whole (s : Stage) (t : Text) : Except Halt (Int × Text) := read word (s.need t.length) s t

theorem read_eq_whole {fuel : Nat} {s : Stage} {t : Text} (h : s.need t.length ≤ fuel) :
    read word fuel s t = whole word s t := by
  induction h with
  | refl => rfl
  | step h ih => rw [read_succ_eq word h, ih]

theorem fits_whole (s : Stage) (t : Text) : Fits s.takes t (whole word s t) :=
  fits_read word (Nat.le_refl _)

/-- The reader without fuel: one step, and the same reader on what is left. -/
theorem whole_eq (s : Stage) (t : Text) : whole word s t = (s.plan word t).run (whole word) := by
  have hneed := need_bounds s t.length
  have hread := read_eq_whole word (Nat.le_add_right (s.need t.length) 1)
  rw [← hread, read_succ]
  exact run_congr (fits_plan word s t) (fun q u hq => fits_read word (by omega))
    fun q u hq => read_eq_whole word (by omega)

end CardShell.Expression
