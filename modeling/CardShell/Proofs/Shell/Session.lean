import CardShell.Session
import CardShell.Proofs.Console
import CardShell.Proofs.Shell.Apart
import CardShell.Proofs.Shell.Delete
import CardShell.Proofs.Shell.Stops

/-!
The prompt, until the input ends. Each turn takes the next line, and a command takes further lines
only by the questions it asks; so each line of the input goes to the prompt or to one question, in
order, and there are turns until no line is left.
-/

set_option autoImplicit false

namespace CardShell.Shell

open CardShell.Action Console

/-- What a line of the input was taken for. A question that is asked behind the last line takes
none. -/
inductive Use
  | command (line : Text)
  | escaped (line : Text)
  | answer (path : Text) (line : Option Text)
  deriving DecidableEq, Repr

def Use.line? : Use → Option Text
  | command line => some line
  | escaped line => some line
  | answer _ line => line

/-- From `m₀` to `m` these questions were asked, each of which was answered by the next line, and no
line was taken otherwise; what was written stands. -/
inductive Conversation (m₀ : Machine) : List Use → Machine → Prop
  | start : Conversation m₀ [] m₀
  | aside {uses : List Use} {m m' : Machine} (h : Conversation m₀ uses m)
    (hkeyboard : m'.console.keyboard = m.console.keyboard)
    (hwritten : m.console.written <:+ m'.console.written) : Conversation m₀ uses m'
  | ask {uses : List Use} {m : Machine} (h : Conversation m₀ uses m) (path : Text) :
    Conversation m₀ (uses ++ [.answer path m.console.nextLine?]) ((Shell.ask path).after m)

/-- What was read at the prompt, and the machine then. -/
def prompted (m : Machine) : LineInput × Machine :=
  let read := (m.console.put m.prompt.bytes).readLine lineLength
  (read.1, { m with console := read.2 })

/-- The turns from `m` to `m'`, of which the last finds no line, and what each line was taken for. A
line that does not begin with ESC is run, cut to its first characters, and whatever comes of it the
session goes on. -/
inductive Session : Machine → List Use → Machine → Prop
  | ended {m m' : Machine} (hline : m.console.nextLine? = none) (hturn : turn m = .ok false m') :
    Session m [] m'
  | escaped {m m₁ m' : Machine} {line : Text} {uses : List Use}
    (hline : m.console.nextLine? = some line) (hescape : line.head? = some escape)
    (hturn : turn m = .ok true m₁) (rest : Session m₁ uses m') : Session m (.escaped line :: uses) m'
  | command {m m₁ m' : Machine} {line : Text} {asked uses : List Use}
    (hline : m.console.nextLine? = some line) (hescape : line.head? ≠ some escape)
    (hturn : turn m = .ok true m₁)
    (hrun : reporting (execute (line.take lineLength) true) (prompted m).2 = .ok () m₁)
    (hasked : Conversation (prompted m).2 asked m₁) (rest : Session m₁ uses m') :
    Session m (.command line :: (asked ++ uses)) m'

/-- From `m` on the prompt comes to run `line` on `m₁`. -/
inductive Dispatched : Machine → Text → Machine → Prop
  | now {m m₁ : Machine} {line : Text} (h : prompted m = (.confirmed line, m₁)) :
    Dispatched m line m₁
  | later {m m₁ m' : Machine} {line : Text} (hturn : turn m = .ok true m')
    (h : Dispatched m' line m₁) : Dispatched m line m₁

variable {m m₀ m' : Machine} {t u : Text} {uses : List Use}

section Taking

theorem Conversation.of_console (h : Conversation m₀ uses m) (hc : m'.console = m.console) :
    Conversation m₀ uses m' :=
  h.aside (congrArg Console.keyboard hc) (hc ▸ List.suffix_refl _)

/-- Every step of a command is an aside or a question. -/
theorem throughout_conversation (m₀ : Machine) :
    Throughout fun _ x => Keeps (fun m => ∃ uses, Conversation m₀ uses m) x where
  stepwise :=
    { plain := fun hx m ⟨uses, h⟩ => ⟨uses, h.aside (hx.beside m).keyboard (hx.beside m).written⟩
      bind := keeps_bind
      outcome := keeps_outcome
      closing := keeps_closing
      ask := fun path _ ⟨_, h⟩ => ⟨_, h.ask path⟩
      drive := fun _ => keeps_zoom _ fun _ ⟨uses, h⟩ => ⟨uses, h.of_console rfl⟩
      heap := fun _ => keeps_zoom _ fun _ ⟨uses, h⟩ => ⟨uses, h.of_console rfl⟩
      release := fun _ => keeps_modify fun _ ⟨uses, h⟩ => ⟨uses, h.of_console rfl⟩ }
  drive := fun _ => keeps_zoom _ fun _ ⟨uses, h⟩ => ⟨uses, h.of_console rfl⟩
  directory := fun _ => keeps_modify fun _ ⟨uses, h⟩ => ⟨uses, h.of_console rfl⟩

theorem conversation_setters (m₀ : Machine) :
    KeptBySetters fun m => ∃ uses, Conversation m₀ uses m := fun _ hb _ _ =>
  (throughout_conversation m₀).closed.performSetter hb (fun _ => keeps_evaluate) fun _ =>
    keeps_modify fun _ ⟨uses, h⟩ => ⟨uses, h.of_console rfl⟩

theorem conversation_of_run (line : Text) (m : Machine) :
    ∃ uses, Conversation m uses ((reporting (execute line true)).after m) := by
  have hP := throughout_conversation m
  have hkeeps : Keeps (fun m' => ∃ uses, Conversation m uses m') (reporting (execute line true)) := by
    refine keeps_bind (keeps_outcome ?_) fun r => ?_
    · exact hP.runLineWithin (conversation_setters m) maxDepth true line
    · cases r with
      | ok _ => exact keeps_pure _
      | error e => exact hP.closed.plain (plain_report e)
  exact hkeeps m ⟨[], .start⟩

/-- The lines that a conversation took are the next ones of the input. -/
theorem Conversation.awaits (h : Conversation m₀ uses m) (ht : m₀.console.Awaits t) :
    ∃ u, m.console.Awaits u ∧ inputLines t = uses.filterMap Use.line? ++ inputLines u ∧
      u.bytes.length ≤ t.bytes.length := by
  induction h with
  | start => exact ⟨t, ht, rfl, Nat.le_refl _⟩
  | aside _ hkeyboard _ ih =>
    obtain ⟨u, hu, hlines, hle⟩ := ih
    exact ⟨u, hu.of_keyboard hkeyboard, hlines, hle⟩
  | @ask uses m _ path ih =>
    obtain ⟨u, hu, hlines, hle⟩ := ih
    have hkeyboard : ((Shell.ask path).after m).console.keyboard =
        (m.console.readLine answerLength).2.keyboard := by
      have hsame : (m.console.put (question path).bytes).keyboard = m.console.keyboard := rfl
      rw [after_ok (ask_apply path m)]
      exact (readLine_congr hsame answerLength).2
    rw [List.filterMap_append]
    -- Behind the last line the answer is missing, and there is nothing to take.
    by_cases hnil : u = []
    · obtain rfl := hnil
      obtain ⟨hnext, hread⟩ := readLine_end hu answerLength
      rw [hread] at hkeyboard
      refine ⟨[], ⟨true, hkeyboard, fun _ => rfl⟩, ?_, hle⟩
      rw [hlines, hnext]
      simp [Use.line?]
    · obtain ⟨line, u', hcons, hlt, hnext, hread⟩ := readLine_next hu hnil answerLength
      rw [hread] at hkeyboard
      refine ⟨u', ⟨false, hkeyboard, nofun⟩, ?_, Nat.le_trans (Nat.le_of_lt hlt) hle⟩
      rw [hlines, hnext, hcons]
      simp [Use.line?]

end Taking

section OneTurn

theorem turn_apply (m : Machine) : turn m = match (prompted m).1 with
    | .confirmed line => (reporting (execute line true) >>= fun _ => pure true) (prompted m).2
    | .cancelled => if (prompted m).2.console.atEnd then .ok false (prompted m).2 else .ok true
        { (prompted m).2 with console := (prompted m).2.console.put (Text.bytes "\r\nEscape\r\n") } := by
  have hread : turn m = (match (prompted m).1 with
    | .confirmed line => do
      reporting (execute line true)
      return true
    | .cancelled => do
      if (← get).console.atEnd then return false
      print "\r\nEscape\r\n"
      return true : Shell Bool) (prompted m).2 := rfl
  rw [hread]
  cases (prompted m).1 with
  | confirmed line => rfl
  | cancelled =>
    dsimp only
    rw [bind_apply, get_apply]
    dsimp only
    split
    · rfl
    · rfl

/-- A line that does not stop the machine is reported on, and the turn is over. -/
theorem reporting_ok {x : Shell Unit} (h : ¬ ∃ why, Stops x why m) :
    reporting x m = .ok () ((reporting x).after m) := by
  cases hx : reporting x m with
  | ok _ m' => rw [after_ok hx]
  | error e m' =>
    unfold reporting at hx
    rw [bind_apply] at hx
    cases hm : x m with
    | ok _ m₁ =>
      rw [outcome_ok hm] at hx
      cases hx
    | error e m₁ => cases e with
      | failed e =>
        rw [outcome_failed hm] at hx
        cases hx
      | stopped why => exact absurd ⟨why, m₁, hm⟩ h

theorem turn_end (h : m.console.Awaits []) :
    ∃ m', turn m = .ok false m' ∧ m'.console.keyboard = .stream [] true := by
  have hput : (m.console.put m.prompt.bytes).Awaits [] := h.of_keyboard rfl
  have hread := (readLine_end hput lineLength).2
  have hinput : (prompted m).1 = .cancelled := congrArg Prod.fst hread
  have hconsole : (prompted m).2.console =
      { m.console.put m.prompt.bytes with keyboard := .stream [] true } := congrArg Prod.snd hread
  refine ⟨(prompted m).2, ?_, congrArg Console.keyboard hconsole⟩
  have hend : (prompted m).2.console.atEnd = true := by
    rw [hconsole]
    rfl
  rw [turn_apply, hinput]
  exact if_pos hend

/-- Each turn that finds a line takes it off the input, and what its command takes besides. -/
theorem turn_next (h : m.console.Awaits t) (ht : t ≠ [])
    (hreturns : ∀ line m₁, prompted m = (.confirmed line, m₁) →
      ¬ ∃ why, Stops (execute line true) why m₁) :
    ∃ m₁ taken u, turn m = .ok true m₁ ∧ m₁.console.Awaits u ∧ u.bytes.length < t.bytes.length ∧
      inputLines t = taken.filterMap Use.line? ++ inputLines u ∧
      ∀ uses m', Session m₁ uses m' → Session m (taken ++ uses) m' := by
  have hput : (m.console.put m.prompt.bytes).Awaits t := h.of_keyboard rfl
  obtain ⟨line, u, hlines, hlt, hnext, hread⟩ := readLine_next hput ht lineLength
  have hline : m.console.nextLine? = some line := hnext
  have hinput := congrArg Prod.fst hread
  have hconsole : (prompted m).2.console =
      { m.console.put m.prompt.bytes with keyboard := .stream u.bytes false } :=
    congrArg Prod.snd hread
  have hu : (prompted m).2.console.Awaits u :=
    ⟨false, congrArg Console.keyboard hconsole, nofun⟩
  by_cases hescape : line.head? = some escape
  · have hcancelled : (prompted m).1 = .cancelled := hinput.trans (if_pos hescape)
    have hopen : ¬ (prompted m).2.console.atEnd = true := by
      rw [hconsole]
      nofun
    have hturn : turn m = .ok true { (prompted m).2 with
        console := (prompted m).2.console.put (Text.bytes "\r\nEscape\r\n") } := by
      rw [turn_apply, hcancelled]
      exact if_neg hopen
    exact ⟨_, [.escaped line], u, hturn, hu.of_keyboard rfl, hlt, hlines,
      fun uses m' rest => .escaped hline hescape hturn rest⟩
  · have hconfirmed : (prompted m).1 = .confirmed (line.take lineLength) :=
      hinput.trans (if_neg hescape)
    have hrun := reporting_ok (hreturns _ _ (Prod.ext hconfirmed rfl))
    obtain ⟨asked, hasked⟩ := conversation_of_run (line.take lineLength) (prompted m).2
    obtain ⟨v, hv, htaken, hle⟩ := hasked.awaits hu
    have hturn : turn m =
        .ok true ((reporting (execute (line.take lineLength) true)).after (prompted m).2) := by
      rw [turn_apply, hconfirmed]
      dsimp only
      rw [bind_apply, hrun]
      rfl
    refine ⟨_, .command line :: asked, v, hturn, hv, Nat.lt_of_le_of_lt hle hlt, ?_,
      fun uses m' rest => .command hline hescape hturn hrun hasked rest⟩
    rw [hlines, htaken]
    rfl

/-- A turn that is over has run a line that did not stop the machine. -/
theorem returns_of_turn {b : Bool} {m₁ : Machine} {line : Text} (hturn : turn m = .ok b m')
    (hp : prompted m = (.confirmed line, m₁)) : ¬ ∃ why, Stops (execute line true) why m₁ := by
  rintro ⟨why, m₂, hstop⟩
  have hreport : reporting (execute line true) m₁ = .error (.stopped why) m₂ := by
    unfold reporting
    rw [bind_apply, outcome_stopped hstop]
  rw [turn_apply, hp] at hturn
  dsimp only at hturn
  rw [bind_apply, hreport] at hturn
  cases hturn

end OneTurn

section Turns

/-- As many turns as there are bytes, and one more, are enough. -/
theorem session_of_turns {fuel : Nat} (h : m.console.Awaits t) (hfuel : t.bytes.length < fuel)
    (hreturns : ∀ line m₁, Dispatched m line m₁ → ¬ ∃ why, Stops (execute line true) why m₁) :
    ∃ uses m', turns fuel m = .ok () m' ∧ Session m uses m' ∧
      m'.console.keyboard = .stream [] true ∧ uses.filterMap Use.line? = inputLines t := by
  -- The bytes that are left bound the turns: a turn that goes on leaves fewer of them.
  induction fuel generalizing m t with
  | zero => exact absurd hfuel (Nat.not_lt_zero _)
  | succ fuel ih =>
    have hturns : ∀ {b m₁}, turn m = .ok b m₁ →
        turns (fuel + 1) m = (if b then turns fuel else pure ()) m₁ := by
      intro b m₁ hturn
      rw [turns, bind_apply, hturn]
    by_cases ht : t = []
    · obtain rfl := ht
      obtain ⟨m', hturn, hkeyboard⟩ := turn_end h
      have hnone := (readLine_end h lineLength).1
      exact ⟨[], m', hturns hturn, .ended hnone hturn, hkeyboard, rfl⟩
    · obtain ⟨m₁, taken, u, hturn, hu, hlt, hlines, hsession⟩ :=
        turn_next h ht fun line m₁ hp => hreturns line m₁ (.now hp)
      obtain ⟨uses, m', hrest, hs, hkeyboard, htaken⟩ :=
        ih hu (Nat.lt_of_lt_of_le hlt (Nat.le_of_lt_succ hfuel))
          fun line m₂ hd => hreturns line m₂ (.later hturn hd)
      refine ⟨taken ++ uses, m', (hturns hturn).trans hrest, hsession uses m' hs, hkeyboard, ?_⟩
      rw [List.filterMap_append, htaken, hlines]

/-- Enough turns that are all over have run only lines that did not stop the machine. -/
theorem returns_of_turns {fuel : Nat} {m₁ : Machine} {line : Text} (h : m.console.Awaits t)
    (hfuel : t.bytes.length < fuel) (hturns : turns fuel m = .ok () m')
    (hd : Dispatched m line m₁) : ¬ ∃ why, Stops (execute line true) why m₁ := by
  induction hd generalizing t fuel with
  | @now m m₁ line hp =>
    obtain ⟨fuel, rfl⟩ := Nat.exists_eq_succ_of_ne_zero (Nat.ne_zero_of_lt hfuel)
    rw [turns, bind_apply] at hturns
    cases hturn : turn m with
    | ok b m₂ => exact returns_of_turn hturn hp
    | error e m₂ =>
      rw [hturn] at hturns
      cases hturns
  | @later m m₁ m₂ line hturn _ ih =>
    obtain ⟨fuel, rfl⟩ := Nat.exists_eq_succ_of_ne_zero (Nat.ne_zero_of_lt hfuel)
    rw [turns, bind_apply, hturn] at hturns
    -- The turn at the end of the input is the last one, so it is not one that leads on to a line.
    have ht : t ≠ [] := by
      rintro rfl
      obtain ⟨m₃, hend, _⟩ := turn_end h
      rw [hturn] at hend
      cases hend
    obtain ⟨m₃, _, u, hnext, hu, hlt, _⟩ := turn_next h ht fun _ _ hp => returns_of_turn hturn hp
    rw [hturn] at hnext
    cases hnext
    exact ih hu (Nat.lt_of_lt_of_le hlt (Nat.le_of_lt_succ hfuel)) hturns

/-- The prompt comes to an end, provided the lines that it runs do not stop the machine, and only
when no input is left. Each line of the input has then been taken once and in order: to be run, to be
passed over for its ESC, or to answer one question of a command. -/
theorem prompting_takes_all_lines (t : Text) (m : Machine) (h : m.console.Awaits t) (n : Nat)
    (hn : t.bytes.length ≤ n)
    (hreturns : ∀ line m₁, Dispatched m line m₁ → ¬ ∃ why, Stops (execute line true) why m₁) :
    ∃ uses m', prompting n m = .ok () { m' with console := m'.console.put (Text.bytes "\r\n") } ∧
      Session m uses m' ∧ m'.console.keyboard = .stream [] true ∧
      uses.filterMap Use.line? = inputLines t := by
  obtain ⟨uses, m', hturns, hsession, hkeyboard, hlines⟩ :=
    session_of_turns h (Nat.lt_succ_of_le hn) hreturns
  refine ⟨uses, m', ?_, hsession, hkeyboard, hlines⟩
  have hprompting : prompting n = turns (n + 1) >>= fun _ => print "\r\n" := rfl
  rw [hprompting, bind_apply, hturns]
  rfl

theorem prompting_takes_four_lines : ∃ (m : Machine) (uses : List Use) (m' : Machine),
    m.console.keyboard = .stream (Text.bytes "DELETE a\r\ny\r\n\x1bx\n# note") false ∧
    prompting 23 m = .ok () { m' with console := m'.console.put (Text.bytes "\r\n") } ∧
    Session m uses m' ∧
    uses.filterMap Use.line? = ["DELETE a".toList, "y".toList, "\x1bx".toList, "# note".toList] := by
  let m : Machine := .boot {} (.labelled []) Builtin.records
    { keyboard := .stream (Text.bytes "DELETE a\r\ny\r\n\x1bx\n# note") false } (.hosted 0 0) .absent
  have hm : m.console.Awaits "DELETE a\r\ny\r\n\x1bx\n# note" := ⟨false, rfl, nofun⟩
  have hover : (turns 24).run' m = some () := by decide +kernel
  cases hturns : turns 24 m with
  | error e m' =>
    unfold EStateM.run' EStateM.run at hover
    rw [hturns] at hover
    cases hover
  | ok _ m' =>
    obtain ⟨uses, m', hprompting, hsession, _, hlines⟩ := prompting_takes_all_lines _ m hm 23
      (by decide) fun line m₁ hd => returns_of_turns hm (by decide) hturns hd
    exact ⟨m, uses, m', rfl, hprompting, hsession, hlines⟩

end Turns

end CardShell.Shell
