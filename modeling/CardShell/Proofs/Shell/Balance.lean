import CardShell.Proofs.Shell.Books
import CardShell.Proofs.Shell.Performed

/-!
A line leaves nothing behind: what it has taken from the heap is freed, and what it has opened on
the card is closed, batch files included. A mount closes what was open before, too.
-/

set_option autoImplicit false

namespace CardShell.Shell

open CardShell.Action

variable {A : Account} {m m' : Machine}

/-- The command mounts the card, and that succeeds. -/
def Invocation.mounts (c : Invocation) : Bool :=
  c.command = .mount && match Drive.mount c.machine.drive with
    | .ok _ _ => true
    | .error _ _ => false

/-- The account to stand after some commands. -/
def Account.through (cs : List Invocation) (A : Account) : Account :=
  if cs.any Invocation.mounts then { A with tally := A.tally.cleared } else A

theorem Account.through_append (cs ds : List Invocation) (A : Account) :
    A.through (cs ++ ds) = (A.through cs).through ds := by
  unfold Account.through
  rw [List.any_append]
  cases cs.any Invocation.mounts with
  | false => rfl
  | true =>
    cases ds.any Invocation.mounts with
    | false => rfl
    | true => rfl

theorem Account.through_of_ne {b : Builtin} (h : b ≠ .mount) (args : Text) (depth : Nat)
    (m : Machine) (A : Account) : A.through [⟨b, args, depth, m⟩] = A := by
  have hnot : (Invocation.mk b args depth m).mounts = false := by
    unfold Invocation.mounts
    rw [decide_eq_false h, Bool.false_and]
  unfold Account.through
  rw [List.any_cons, hnot]
  rfl

theorem balanced_refreshDirectory : Balanced refreshDirectory :=
  closed_balanced.refreshDirectory fun _ _ => keeps_modify fun _ hm => ⟨hm.heap, hm.drive⟩

/-- A mount that succeeds closes everything; one that fails, nothing. -/
theorem mount_books (h : Books A m) (args : Text) (depth : Nat) :
    Books (A.through [⟨.mount, args, depth, m⟩]) (mount.after m) := by
  have hrest : ∀ e, Balanced (report e >>= fun _ => refreshDirectory) :=
    fun e => closed_balanced.bind (plain_report e).balanced fun _ => balanced_refreshDirectory
  unfold mount
  rcases Drive.change_cases .mount (modify Volume.mount) m.drive with ⟨e, hx⟩ | hx
  · have hmount : Drive.mount m.drive = .error e (m.drive.ticked .mount) := hx
    have hthrough : A.through [⟨.mount, args, depth, m⟩] = A := by
      unfold Account.through Invocation.mounts
      simp only [List.any_cons, hmount]
      rfl
    rw [hthrough, after_bind_ok (outcome_failed (drive_error hmount))]
    exact hrest e A _ ⟨h.heap, h.drive⟩
  · have hmount : Drive.mount m.drive =
        .ok () { m.drive.ticked .mount with volume := m.drive.volume.mount } := by
      rw [Drive.mount, hx]
      rfl
    have hthrough : A.through [⟨.mount, args, depth, m⟩] = { A with tally := A.tally.cleared } := by
      unfold Account.through Invocation.mounts
      simp only [List.any_cons, hmount]
      rfl
    rw [hthrough, after_bind_ok (outcome_ok (drive_ok hmount))]
    exact balanced_refreshDirectory _ _ ⟨h.heap, h.drive.mount⟩

theorem balanced_perform {b : Builtin} (hm : b ≠ .mount) (hb : b ≠ .batch)
    (run : Text → Shell Unit) (args : Text) : Balanced (b.perform run args) := by
  have hset : b.setsVariables = true → Balanced (b.perform run args) := by
    refine fun hs => closed_balanced.performSetter hs (fun _ t A => keeps_evaluate t) fun f A => ?_
    exact keeps_modify fun _ hm => ⟨hm.heap, hm.drive⟩
  have hquiet : b.isQuiet = true → Balanced (b.perform run args) :=
    fun hq => closed_balanced.perform hq (fun _ _ => keeps_stop _) hset
  cases b with
  | changeDirectory =>
    refine closed_balanced.performChangeDirectory balanced_refreshDirectory (fun path => ?_) run args
    exact balanced_drive (Drive.steady_changeDirectory path)
  | rename =>
    exact closed_balanced.performRename (fun a b => balanced_drive (Drive.steady_rename a b)) run args
  | mount => exact absurd rfl hm
  | batch => exact absurd rfl hb
  | _ => exact hquiet rfl

section

variable {run : Text → Shell Unit} {byLine : Text → Machine → List Invocation}

theorem runLines_books
    (hrun : ∀ line A m, Books A m → Books (A.through (byLine line m)) ((run line).after m))
    (path : Text) (n : Nat) (lines : List Text) (h : Books A m) :
    Books (A.through (performedByLines run byLine lines m))
      ((runLines run path n lines).after m) := by
  induction lines generalizing A m n with
  | nil => exact h
  | cons line lines ih =>
    have hline := hrun line A m h
    rw [runLines, performedByLines, Account.through_append]
    cases hx : run line m with
    | ok a m' =>
      rw [after_ok hx] at hline
      rw [after_bind_ok (outcome_ok hx)]
      exact ih (n + 1) hline
    | error halt m' =>
      rw [after_error hx] at hline
      cases halt with
      | stopped why =>
        rw [after_bind_error (outcome_stopped hx)]
        exact hline
      | failed e =>
        rw [after_bind_ok (outcome_failed hx)]
        exact (plain_bind (plain_print _) fun _ => plain_fail e).balanced _ m' hline

theorem batch_books
    (hrun : ∀ line A m, Books A m → Books (A.through (byLine line m)) ((run line).after m))
    (args : Text) (h : Books A m) :
    Books (A.through (performedByBuiltin run byLine .batch args m))
      ((Builtin.batch.perform run args).after m) := by
  unfold performedByBuiltin
  rcases requiredWord_cases args m with ⟨hw, hreq⟩ | ⟨path, rest, hw, hreq⟩
  · have hafter : (Builtin.batch.perform run args).after m = m := after_bind_error hreq
    rw [hw, hafter]
    exact h
  · have hafter : (Builtin.batch.perform run args).after m = (runBatch run path).after m := by
      unfold Builtin.perform
      rw [after_bind_ok hreq]
    have hread := balanced_drive (Drive.steady_readToEnd path) A m h
    rw [hw, hafter]
    unfold runBatch performedByBatch
    dsimp only
    cases hx : drive (Drive.readToEnd path) m with
    | ok bytes m' =>
      rw [after_ok hx] at hread
      rw [after_bind_ok hx]
      exact runLines_books hrun path 1 _ hread
    | error e m' =>
      rw [after_error hx] at hread
      rw [after_bind_error hx]
      exact hread

theorem perform_books
    (hrun : ∀ line A m, Books A m → Books (A.through (byLine line m)) ((run line).after m))
    (b : Builtin) (args : Text) (depth : Nat) (h : Books A m) :
    Books (A.through (⟨b, args, depth, m⟩ :: performedByBuiltin run byLine b args m))
      ((b.perform run args).after m) := by
  rw [← List.singleton_append, Account.through_append]
  by_cases hmount : b = .mount
  · subst hmount
    rw [performedByBuiltin_of_ne run byLine Builtin.noConfusion]
    exact mount_books h args depth
  · rw [Account.through_of_ne hmount]
    by_cases hbatch : b = .batch
    · subst hbatch
      exact batch_books hrun args h
    · rw [performedByBuiltin_of_ne run byLine hbatch]
      exact balanced_perform hmount hbatch run args A m h

end

theorem runLineWithin_books (depth : Nat) (atPrompt : Bool) (line : Text) (h : Books A m) :
    Books (A.through (performedWithin depth line m)) ((runLineWithin depth atPrompt line).after m) := by
  induction depth generalizing atPrompt line A m with
  | zero => exact h
  | succ depth ih =>
    rcases runLineWithin_cases depth atPrompt line m with ⟨b, args, hx, hp⟩ | ⟨hp, x, hx, hclosed⟩
    · rw [hp, after_congr hx]
      exact perform_books (fun line A m => ih true line) b args depth h
    · rw [hp, after_congr hx]
      exact hclosed _ closed_balanced A m h

/-- On any card that operations have led to, with the heap running out, an allocation set to fail or
the driver failing at any step: a line gives back all that it has taken from the heap, and closes
all that it has opened; it closes what was open before only if it mounts the card. -/
theorem execute_balanced (m : Machine) (line : Text) (atPrompt : Bool) (label : Text)
    (ops : List Volume.Operation) (hcard : m.drive.volume = (Volume.labelled label).runAll ops)
    (hissued : ((execute line atPrompt).after m).drive.volume.issued < Volume.handleLimit) :
    let m' := (execute line atPrompt).after m
    let mounted := (performed line m).any Invocation.mounts
    m'.heap.inUse = m.heap.inUse ∧ m'.heap.live = m.heap.live ∧
      (∃ k, m'.heap.total = m.heap.total + k ∧ m'.heap.frees = m.heap.frees + k) ∧
      m'.drive.volume.openFileCount = (if mounted then 0 else m.drive.volume.openFileCount) ∧
      m'.drive.volume.openListingCount =
        (if mounted then 0 else m.drive.volume.openListingCount) := by
  intro m' mounted
  have hnum : m.drive.volume.Numbered := by
    rw [hcard]
    exact Volume.numbered_runAll ops (Volume.numbered_labelled label)
  have hbooks : Books ⟨m.heap, .of m.drive.volume⟩ m := ⟨.refl m.heap, hnum.holds_of⟩
  have hafter : Books (Account.through (performed line m) ⟨m.heap, .of m.drive.volume⟩) m' :=
    runLineWithin_books maxDepth atPrompt line hbooks
  cases hmounted : mounted with
  | false =>
    have hthrough : Account.through (performed line m) ⟨m.heap, .of m.drive.volume⟩ =
        ⟨m.heap, .of m.drive.volume⟩ := if_neg (ne_true_of_eq_false hmounted)
    rw [hthrough] at hafter
    obtain ⟨hfiles, hlistings⟩ := hnum.holds_of.counts hafter.drive
      (Nat.lt_of_le_of_lt hafter.drive.floor hissued) hissued
    exact ⟨hafter.heap.inUse, hafter.heap.live, hafter.heap.turnover, hfiles, hlistings⟩
  | true =>
    have hthrough : Account.through (performed line m) ⟨m.heap, .of m.drive.volume⟩ =
        ⟨m.heap, (Volume.Tally.of m.drive.volume).cleared⟩ := if_pos hmounted
    rw [hthrough] at hafter
    obtain ⟨hfiles, hlistings⟩ := hnum.holds_of.mount.counts hafter.drive
      (Nat.lt_of_le_of_lt hafter.drive.floor hissued) hissued
    exact ⟨hafter.heap.inUse, hafter.heap.live, hafter.heap.turnover, hfiles, hlistings⟩

/-- A batch file that mounts the card, run while a file is open and the driver is to fail: that file
is closed. -/
theorem execute_balanced_through_mount :
    let ops : List Volume.Operation :=
      [.writeFile "/a" (Text.bytes "MOUNT\nDIR\nCOPY a b"), .openFile "/a" .read]
    let m : Machine :=
      { Machine.boot {} ((Volume.labelled []).runAll ops) Builtin.records {} (.hosted 0 0) .absent with
        drive := ⟨(Volume.labelled []).runAll ops, [⟨.closeListing, 0, 1⟩], []⟩ }
    let m' := (execute "EXEC /a" true).after m
    m'.drive.volume.issued < Volume.handleLimit ∧ m.drive.volume.openFileCount = 1 ∧
      m'.heap.inUse = m.heap.inUse ∧ m'.heap.live = m.heap.live ∧
      (∃ k, m'.heap.total = m.heap.total + k ∧ m'.heap.frees = m.heap.frees + k) ∧
      m'.drive.volume.openFileCount = 0 ∧ m'.drive.volume.openListingCount = 0 := by
  intro ops m
  have hissued : ((execute "EXEC /a" true).after m).drive.volume.issued < Volume.handleLimit := by
    decide +kernel
  have hmounted : (performed "EXEC /a" m).any Invocation.mounts = true := by decide +kernel
  have hopen : m.drive.volume.openFileCount = 1 := by decide +kernel
  have h := execute_balanced m "EXEC /a" true [] ops rfl hissued
  generalize (execute "EXEC /a" true).after m = m' at h hissued ⊢
  rw [hmounted] at h
  exact ⟨hissued, hopen, h⟩

end CardShell.Shell
