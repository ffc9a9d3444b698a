import CardShell.Proofs.Calendar.Weekday
import CardShell.Proofs.Command.Offsets
import CardShell.Proofs.Flat.Operation
import CardShell.Proofs.Loader.Load
import CardShell.Proofs.Shell.Performed
import CardShell.Proofs.Shell.Stopping
import CardShell.Proofs.Variable.Cut
import CardShell.Proofs.Variable.Store

/-!
When a line stops the machine: exactly if it performs a command that does, and the only ones are an
evaluation whose expression is cut inside a character, a batch file that is nested too deep, and a
listing in columns that are too wide. Nothing else that is cut by offsets is cut off a boundary.
-/

set_option autoImplicit false

namespace CardShell.Shell

open CardShell.Action

variable {α β : Type} {why : Stop} {m : Machine}

/-- The expression of an evaluation is cut inside a character. -/
def Invocation.Cuts (c : Invocation) : Prop :=
  c.command = .setNumber ∧ ∃ name t, nameAndText c.args c.machine = .ok (name, t) c.machine ∧
    Expression.Cuts c.machine.store c.machine.readings t

/-- A batch file that has a line is to be run where none may nest. -/
def Invocation.TooDeep (c : Invocation) : Prop :=
  c.command = .batch ∧ c.depth = 0 ∧ ∃ path bytes m', (Arguments.nextWord c.args).1 = some path ∧
    drive (Drive.readToEnd path) c.machine = .ok bytes m' ∧ Text.lines (Utf8.lossy bytes) ≠ []

/-- The entries of a listing are to be printed in columns, and a column is too wide. -/
def Invocation.TooWide (c : Invocation) : Prop :=
  c.command = .listDirectory ∧ ∃ path es m',
    listArguments c.args.length false c.args = (false, path) ∧ Gathers path c.machine es m' ∧
    ¬ Listing.Printable m'.console.columns es

def Invocation.StopsWith (c : Invocation) : Stop → Prop
  | .cutCharacter => c.Cuts
  | .nesting => c.TooDeep
  | .tooWide => c.TooWide

theorem not_stopsWith_nil : ¬ ∃ c ∈ ([] : List Invocation), c.StopsWith why := by
  rintro ⟨c, hc, _⟩
  cases hc

theorem ends_perform (b : Builtin) (h : b ≠ .setNumber ∧ b ≠ .batch ∧ b ≠ .listDirectory)
    (run : Text → Shell Unit) (args : Text) : Ends (b.perform run args) := by
  obtain ⟨hset, hbatch, hlist⟩ := h
  refine throughout_ends.perform (fun hb => absurd hb hlist) (fun hs => ?_) fun hb => absurd hb hbatch
  exact throughout_ends.closed.performSetter hs (fun he => absurd he hset) fun _ => ends_modifyGet _

theorem stops_evaluate_iff (t : Text) :
    Stops (evaluate t) why m ↔ why = .cutCharacter ∧ Expression.Cuts m.store m.readings t := by
  rw [← Expression.evaluate_stop_iff]
  have heval : evaluate t m = Action.ofExcept (Expression.evaluate m.store m.readings t) m := rfl
  unfold Stops
  rw [heval]
  cases Expression.evaluate m.store m.readings t with
  | ok v =>
    refine iff_of_false ?_ nofun
    rintro ⟨m', h⟩
    cases h
  | error e =>
    rw [ofExcept_error]
    constructor
    · rintro ⟨m', h⟩
      cases h
      rfl
    · intro h
      cases h
      exact ⟨m, rfl⟩

theorem nameAndText_cases (args : Text) (m : Machine) :
    (∃ e, nameAndText args m = .error (.failed e) m) ∨
      ∃ name t, nameAndText args m = .ok (name, t) m := by
  unfold nameAndText
  rw [bind_apply]
  rcases requiredWord_cases args m with ⟨_, hreq⟩ | ⟨name, rest, _, hreq⟩
  · rw [hreq]
    exact Or.inl ⟨_, rfl⟩
  · rw [hreq]
    dsimp only
    split
    · exact Or.inl ⟨_, rfl⟩
    · exact Or.inr ⟨name, _, rfl⟩

theorem stops_setNumber_iff (run : Text → Shell Unit) (args : Text) :
    Stops (Builtin.setNumber.perform run args) why m ↔
      why = .cutCharacter ∧ ∃ name t, nameAndText args m = .ok (name, t) m ∧
        Expression.Cuts m.store m.readings t := by
  have hperform : Builtin.setNumber.perform run args =
      (nameAndText args >>= fun p => evaluate p.2 >>= fun v => assign p.1 v) := rfl
  rw [hperform, stops_bind_iff, or_iff_right (plain_nameAndText args).ends.not_stops]
  constructor
  · rintro ⟨⟨name, t⟩, m', hx, hstop⟩
    rcases nameAndText_cases args m with ⟨e, hy⟩ | ⟨name', t', hy⟩
    · rw [hy] at hx
      cases hx
    · rw [hy] at hx
      cases hx
      rcases stops_bind_iff.mp hstop with hstop | ⟨v, m₂, _, hstop⟩
      · obtain ⟨hwhy, hcuts⟩ := (stops_evaluate_iff t).mp hstop
        exact ⟨hwhy, name, t, hy, hcuts⟩
      · exact absurd hstop (throughout_ends.closed.assign (fun _ => ends_modifyGet _) name v).not_stops
  · rintro ⟨hwhy, name, t, hx, hcuts⟩
    exact ⟨(name, t), m, hx, stops_bind_iff.mpr (Or.inl ((stops_evaluate_iff t).mpr ⟨hwhy, hcuts⟩))⟩

theorem stops_listDirectory_iff (run : Text → Shell Unit) (args : Text) :
    Stops (Builtin.listDirectory.perform run args) why m ↔ why = .tooWide ∧ ∃ path es m',
      listArguments args.length false args = (false, path) ∧ Gathers path m es m' ∧
        ¬ Listing.Printable m'.console.columns es := by
  have hperform : Builtin.listDirectory.perform run args =
      list (listArguments args.length false args).2 (listArguments args.length false args).1 := rfl
  rw [hperform, stops_list_iff]
  generalize listArguments args.length false args = p
  obtain ⟨long, path⟩ := p
  constructor
  · rintro ⟨hwhy, rfl, es, m', hgathers, hwide⟩
    exact ⟨hwhy, path, es, m', rfl, hgathers, hwide⟩
  · rintro ⟨hwhy, path', es, m', hargs, hgathers, hwide⟩
    cases hargs
    exact ⟨hwhy, rfl, es, m', hgathers, hwide⟩

theorem stops_batch_iff (run : Text → Shell Unit) (args : Text) :
    Stops (Builtin.batch.perform run args) why m ↔
      ∃ path bytes m', (Arguments.nextWord args).1 = some path ∧
        drive (Drive.readToEnd path) m = .ok bytes m' ∧
        Stops (runLines run path 1 (Text.lines (Utf8.lossy bytes))) why m' := by
  have hperform : Builtin.batch.perform run args =
      (requiredWord args >>= fun p => runBatch run p.1) := rfl
  have hword : Ends (requiredWord args) := (plain_required _).ends
  have hread : ∀ path, Ends (drive (Drive.readToEnd path)) := fun path => ends_on _ _ _
  rw [hperform, stops_bind_iff, or_iff_right hword.not_stops]
  rcases requiredWord_cases args m with ⟨hw, hreq⟩ | ⟨path, rest, hw, hreq⟩
  · refine iff_of_false ?_ ?_
    · rintro ⟨p, m', hx, _⟩
      rw [hreq] at hx
      cases hx
    · rintro ⟨path, bytes, m', hx, _⟩
      rw [hw] at hx
      cases hx
  · constructor
    · rintro ⟨p, m₁, hx, hstop⟩
      rw [hreq] at hx
      cases hx
      rcases stops_bind_iff.mp hstop with hstop | ⟨bytes, m₂, hbytes, hstop⟩
      · exact absurd hstop (hread path).not_stops
      · exact ⟨path, bytes, m₂, hw, hbytes, hstop⟩
    · rintro ⟨path', bytes, m', hx, hbytes, hstop⟩
      rw [hw] at hx
      cases hx
      exact ⟨(path, rest), m, hreq, stops_bind_iff.mpr (Or.inr ⟨bytes, m', hbytes, hstop⟩)⟩

theorem stops_runLines_iff {run : Text → Shell Unit} {byLine : Text → Machine → List Invocation}
    (hrun : ∀ line m why, Stops (run line) why m ↔ ∃ c ∈ byLine line m, c.StopsWith why)
    (path : Text) (n : Nat) (lines : List Text) :
    Stops (runLines run path n lines) why m ↔
      ∃ c ∈ performedByLines run byLine lines m, c.StopsWith why := by
  induction lines generalizing m n with
  | nil => exact iff_of_false (ends_pure _).not_stops not_stopsWith_nil
  | cons line lines ih =>
    have hline := hrun line m why
    rw [runLines, performedByLines]
    simp only [List.mem_append, or_and_right, exists_or]
    rw [← hline]
    cases hx : run line m with
    | ok a m' =>
      rw [stops_bind_of_ok (outcome_ok hx), or_iff_right (not_stops_of_ok hx)]
      exact ih (n + 1)
    | error e m' =>
      rw [stops_of_error hx]
      cases e with
      | failed e =>
        rw [stops_bind_of_ok (outcome_failed hx)]
        refine iff_of_false ?_ ?_
        · exact (plain_bind (plain_print _) fun _ => plain_fail e).ends.not_stops
        · rintro (h | h)
          · cases h
          · exact not_stopsWith_nil h
      | stopped w =>
        rw [stops_bind_of_error (outcome_stopped hx)]
        exact (or_iff_left not_stopsWith_nil).symm

/-- Where nothing may nest, the first line stops. -/
theorem stops_runLines_zero_iff (path : Text) (n : Nat) (lines : List Text) :
    Stops (runLines (runLineWithin 0 true) path n lines) why m ↔ why = .nesting ∧ lines ≠ [] := by
  cases lines with
  | nil => exact iff_of_false (ends_pure _).not_stops fun h => h.2 rfl
  | cons line lines =>
    have hline : runLineWithin 0 true line m = .error (.stopped .nesting) m := rfl
    rw [runLines, stops_bind_of_error (outcome_stopped hline)]
    constructor
    · rintro ⟨⟩
      exact ⟨rfl, List.cons_ne_nil _ _⟩
    · rintro ⟨rfl, -⟩
      rfl

theorem performedByBuiltin_zero (b : Builtin) (args : Text) (m : Machine) :
    performedByBuiltin (runLineWithin 0 true) (performedWithin 0) b args m = [] := by
  have hlines : ∀ lines m, performedByLines (runLineWithin 0 true) (performedWithin 0) lines m = [] := by
    intro lines m
    cases lines with
    | nil => rfl
    | cons line lines => rfl
  unfold performedByBuiltin performedByBatch
  split
  · split
    · exact hlines _ _
    · rfl
  · rfl

/-- A batch file stops where one of its lines does. -/
theorem stops_batch_of_lines {run : Text → Shell Unit}
    {byLine : Text → Machine → List Invocation}
    (hrun : ∀ line m why, Stops (run line) why m ↔ ∃ c ∈ byLine line m, c.StopsWith why)
    (args : Text) : Stops (Builtin.batch.perform run args) why m ↔
      ∃ c ∈ performedByBuiltin run byLine .batch args m, c.StopsWith why := by
  rw [stops_batch_iff]
  unfold performedByBuiltin
  cases (Arguments.nextWord args).1 with
  | none =>
    refine iff_of_false ?_ not_stopsWith_nil
    rintro ⟨path, bytes, m', h, _⟩
    cases h
  | some path =>
    dsimp only
    unfold performedByBatch
    cases hx : drive (Drive.readToEnd path) m with
    | ok bytes m' =>
      dsimp only
      rw [← stops_runLines_iff hrun path 1]
      constructor
      · rintro ⟨_, _, _, hpath, hbytes, hstop⟩
        cases hpath
        rw [hx] at hbytes
        cases hbytes
        exact hstop
      · exact fun hstop => ⟨path, bytes, m', rfl, hx, hstop⟩
    | error e m' =>
      refine iff_of_false ?_ not_stopsWith_nil
      rintro ⟨_, _, _, hpath, hbytes, _⟩
      cases hpath
      rw [hx] at hbytes
      cases hbytes

/-- Where nothing may nest, a batch file stops if it has a line. -/
theorem stops_batch_zero_iff (args : Text) :
    Stops (Builtin.batch.perform (runLineWithin 0 true) args) why m ↔
      Invocation.StopsWith ⟨.batch, args, 0, m⟩ why := by
  rw [stops_batch_iff]
  simp only [stops_runLines_zero_iff]
  by_cases hwhy : why = .nesting
  · subst hwhy
    constructor
    · rintro ⟨path, bytes, m', hpath, hbytes, _, hlines⟩
      exact ⟨rfl, rfl, path, bytes, m', hpath, hbytes, hlines⟩
    · rintro ⟨_, _, path, bytes, m', hpath, hbytes, hlines⟩
      exact ⟨path, bytes, m', hpath, hbytes, rfl, hlines⟩
  · refine iff_of_false ?_ fun h => ?_
    · rintro ⟨_, _, _, _, _, h, _⟩
      exact hwhy h
    · cases why with
      | nesting => exact hwhy rfl
      | cutCharacter => exact nomatch h.1
      | tooWide => exact nomatch h.1

/-- A command other than a batch file stops by itself. -/
theorem stops_perform_of_ne {b : Builtin} (run : Text → Shell Unit) (args : Text) {depth : Nat}
    (hbatch : b ≠ .batch) :
    Stops (b.perform run args) why m ↔ Invocation.StopsWith ⟨b, args, depth, m⟩ why := by
  by_cases hset : b = .setNumber
  · subst hset
    rw [stops_setNumber_iff]
    cases why with
    | cutCharacter => exact ⟨fun h => ⟨rfl, h.2⟩, fun h => ⟨rfl, h.2⟩⟩
    | nesting => exact iff_of_false (fun h => nomatch h.1) fun h => nomatch h.1
    | tooWide => exact iff_of_false (fun h => nomatch h.1) fun h => nomatch h.1
  by_cases hlist : b = .listDirectory
  · subst hlist
    rw [stops_listDirectory_iff]
    cases why with
    | cutCharacter => exact iff_of_false (fun h => nomatch h.1) fun h => nomatch h.1
    | nesting => exact iff_of_false (fun h => nomatch h.1) fun h => nomatch h.1
    | tooWide => exact ⟨fun h => ⟨rfl, h.2⟩, fun h => ⟨rfl, h.2⟩⟩
  refine iff_of_false (ends_perform b ⟨hset, hbatch, hlist⟩ run args).not_stops ?_
  cases why with
  | cutCharacter => exact fun h => hset h.1
  | nesting => exact fun h => hbatch h.1
  | tooWide => exact fun h => hlist h.1

theorem stops_perform_iff {depth : Nat} (hrun : depth ≠ 0 → ∀ line m why,
      Stops (runLineWithin depth true line) why m ↔
        ∃ c ∈ performedWithin depth line m, c.StopsWith why) (b : Builtin) (args : Text) :
    Stops (b.perform (runLineWithin depth true) args) why m ↔
      Invocation.StopsWith ⟨b, args, depth, m⟩ why ∨
      ∃ c ∈ performedByBuiltin (runLineWithin depth true) (performedWithin depth) b args m,
        c.StopsWith why := by
  by_cases hbatch : b = .batch
  · subst hbatch
    cases depth with
    | zero =>
      rw [performedByBuiltin_zero, or_iff_left not_stopsWith_nil]
      exact stops_batch_zero_iff args
    | succ depth =>
      rw [stops_batch_of_lines (hrun (Nat.succ_ne_zero depth))]
      refine (or_iff_right ?_).symm
      cases why with
      | cutCharacter => exact fun h => nomatch h.1
      | nesting => exact fun h => nomatch h.2.1
      | tooWide => exact fun h => nomatch h.1
  · rw [performedByBuiltin_of_ne _ _ hbatch, or_iff_left not_stopsWith_nil]
    exact stops_perform_of_ne _ args hbatch

theorem stops_runLineWithin_iff (depth : Nat) (atPrompt : Bool) (line : Text) :
    Stops (runLineWithin (depth + 1) atPrompt line) why m ↔
      ∃ c ∈ performedWithin (depth + 1) line m, c.StopsWith why := by
  induction depth using Nat.strongRecOn generalizing atPrompt line m why with
  | _ depth ih =>
    have hrun : depth ≠ 0 → ∀ line m why, Stops (runLineWithin depth true line) why m ↔
        ∃ c ∈ performedWithin depth line m, c.StopsWith why := by
      intro h0 line m why
      obtain ⟨k, rfl⟩ := Nat.exists_eq_succ_of_ne_zero h0
      exact ih k (Nat.lt_succ_self k) true line
    rcases runLineWithin_cases depth atPrompt line m with ⟨b, args, hx, hp⟩ | ⟨hp, x, hx, hclosed⟩
    · rw [hp, Stops, hx]
      simp only [List.mem_cons, or_and_right, exists_or, exists_eq_left]
      exact stops_perform_iff hrun b args
    · rw [hp, Stops, hx]
      exact iff_of_false (hclosed _ throughout_ends.closed).not_stops not_stopsWith_nil

/-- A line stops the machine exactly if it performs a command that does. -/
theorem execute_stops_iff (line : Text) (atPrompt : Bool) (m : Machine) (why : Stop) :
    Stops (execute line atPrompt) why m ↔ ∃ c ∈ performed line m, c.StopsWith why :=
  stops_runLineWithin_iff (maxDepth - 1) atPrompt line

/-- Every offset that a text is cut at is a boundary of it, and every index lies in what is read there:
what is read by offsets is read as if character by character. -/
structure InBounds : Prop where
  words : ∀ t, Arguments.nextWordAt t = some (Arguments.nextWord t)
  paths : ∀ path, PathText.splitAt path = some (PathText.split path)
  insertions : ∀ t, Expand.piecesAt t.length t = some (Expand.pieces t)
  escapes : ∀ t, Display.unescapeAt t (t.bytes.length + 1) 0 = some (Display.unescape t)
  expressions : ∀ word stage (t rest : Text), Expression.Comes word .sum t stage rest →
    Text.from? (t.size - rest.size) t = some rest
  ranges : ∀ (memory : Memory) address count i, memory.offset? address count = .ok i →
    i + count ≤ memory.size
  dates : ∀ t : DateTime, t.weekday < DateTime.dayNames.length ∧
    t.clampedMonth - 1 < DateTime.monthNames.length
  labels : ∀ label vs, vs ≠ [] → Variables.halving label vs 0 vs.length < vs.length
  storedPaths : ∀ label ops, ∀ r ∈ results FlatVolume.answer ops (FlatVolume.labelled label),
    ∀ why, r ≠ .error (.stopped why)
  columns : ∀ es, 0 < Listing.columnWidth es

theorem inBounds : InBounds where
  words := Arguments.nextWordAt_eq
  paths := PathText.splitAt_eq
  insertions _ := Expand.piecesAt_eq (Nat.le_refl _)
  escapes _ := Display.unescapeAt_eq (Nat.lt_succ_self _)
  expressions word _ _ _ h := Text.from?_of_suffix (h.suffix word)
  ranges memory address count i h := by
    obtain ⟨hbase, hend, rfl⟩ := offset?_ok h
    omega
  dates t := ⟨t.weekday_lt, t.clampedMonth_lt⟩
  labels _ _ hsome :=
    Nat.lt_of_lt_of_eq (Variables.halving_lt (List.length_pos_of_ne_nil hsome)) (Nat.zero_add _)
  storedPaths := FlatVolume.results_ne_stopped
  columns := Listing.columnWidth_pos

/-- Words, paths, insertions, escapes and stored paths are never cut off a boundary. So a line comes back
with success or an error exactly if no expression that it evaluates is cut inside a character, no batch
file of it nests too deep, and no listing of it has a column that is too wide. -/
theorem execute_returns_iff (line : Text) (atPrompt : Bool) (m : Machine) :
    InBounds ∧
    (((∃ m', execute line atPrompt m = .ok () m') ∨
      ∃ e m', execute line atPrompt m = .error (.failed e) m') ↔
    ∀ c ∈ performed line m, ¬ c.Cuts ∧ ¬ c.TooDeep ∧ ¬ c.TooWide) := by
  have hstops := execute_stops_iff line atPrompt m
  refine ⟨inBounds, ?_, ?_⟩
  · intro hreturns c hc
    have hnot : ∀ why, ¬ c.StopsWith why := by
      intro why hstop
      have hx := (hstops why).mpr ⟨c, hc, hstop⟩
      rcases hreturns with ⟨_, h⟩ | ⟨_, _, h⟩
      · exact not_stops_of_ok h hx
      · cases (stops_of_error h).mp hx
    exact ⟨hnot .cutCharacter, hnot .nesting, hnot .tooWide⟩
  · intro hall
    cases hx : execute line atPrompt m with
    | ok u m' => exact Or.inl ⟨m', rfl⟩
    | error e m' => cases e with
      | failed e => exact Or.inr ⟨e, m', rfl⟩
      | stopped why =>
        obtain ⟨c, hc, hstop⟩ := (hstops why).mp ⟨m', hx⟩
        obtain ⟨hcut, hdeep, hwide⟩ := hall c hc
        cases why with
        | cutCharacter => exact absurd hstop hcut
        | nesting => exact absurd hstop hdeep
        | tooWide => exact absurd hstop hwide

/-- An expression that starts with a character of two bytes stops the machine. -/
theorem execute_cut : ¬ ∀ (line : Text) (atPrompt : Bool) (m : Machine),
    (∃ m', execute line atPrompt m = .ok () m') ∨
      ∃ e m', execute line atPrompt m = .error (.failed e) m' := by
  intro law
  have h := law "SETEVAL x é" true
    (.boot {} (.labelled []) Builtin.records {} (.hosted 0 0) .absent)
  have hstop : (match execute "SETEVAL x é" true
      (.boot {} (.labelled []) Builtin.records {} (.hosted 0 0) .absent) with
    | .error (.stopped _) _ => true
    | _ => false) = true := by decide +kernel
  rcases h with ⟨m', h⟩ | ⟨e, m', h⟩
  · rw [h] at hstop
    cases hstop
  · rw [h] at hstop
    cases hstop

end CardShell.Shell
