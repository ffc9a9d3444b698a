import CardShell.Proofs.Listing
import CardShell.Proofs.Shell.Batch
import CardShell.Proofs.Volume.Removed

/-!
Deleting the matches of a pattern, on a card that does not fail and with enough of the heap. What an
item comes to is told by the console, on which the user consents or does not, and by the volume, which
unlinks the entry or refuses to. The batch ends with the first item that gets no consent, and with the
first refusal.
-/

set_option autoImplicit false

namespace CardShell

open CardShell.Action

namespace Console

variable {c c' : Console} {max : Nat}

/-- The next `n` lines, and the console after them. -/
def readLines (max : Nat) : Nat → Console → List LineInput × Console
  | 0, c => ([], c)
  | n + 1, c =>
    let (line, c) := c.readLine max
    let (lines, c) := readLines max n c
    (line :: lines, c)

/-- What is read does not depend on what was written. -/
theorem readLine_congr (h : c.keyboard = c'.keyboard) (max : Nat) :
    (c.readLine max).1 = (c'.readLine max).1 ∧
      (c.readLine max).2.keyboard = (c'.readLine max).2.keyboard := by
  unfold readLine
  rw [h]
  split
  · exact ⟨rfl, h⟩
  · exact ⟨rfl, rfl⟩
  · exact ⟨rfl, rfl⟩
  · exact ⟨rfl, rfl⟩
  · dsimp only
    split
    · exact ⟨rfl, rfl⟩
    · exact ⟨rfl, rfl⟩

theorem readLines_congr (h : c.keyboard = c'.keyboard) (max n : Nat) :
    (c.readLines max n).1 = (c'.readLines max n).1 ∧
      (c.readLines max n).2.keyboard = (c'.readLines max n).2.keyboard := by
  induction n generalizing c c' with
  | zero => exact ⟨rfl, h⟩
  | succ n ih =>
    obtain ⟨hline, hkeyboard⟩ := readLine_congr h max
    obtain ⟨hlines, hrest⟩ := ih hkeyboard
    exact ⟨List.cons_eq_cons.mpr ⟨hline, hlines⟩, hrest⟩

theorem take_readLines {max k n : Nat} (hk : k ≤ n) (c : Console) :
    (c.readLines max n).1.take k = (c.readLines max k).1 := by
  induction k generalizing c n with
  | zero => rfl
  | succ k ih =>
    obtain ⟨n, rfl⟩ := Nat.exists_eq_add_of_le' (Nat.zero_lt_of_lt hk)
    exact congrArg ((c.readLine max).1 :: ·) (ih (Nat.le_of_succ_le_succ hk) _)

theorem length_readLines (max n : Nat) (c : Console) : (c.readLines max n).1.length = n := by
  induction n generalizing c with
  | zero => rfl
  | succ n ih => exact congrArg (· + 1) (ih _)

theorem output_readLine (max : Nat) (c : Console) : (c.readLine max).2.output = c.output := by
  unfold readLine
  split
  · rfl
  · rfl
  · rfl
  · rfl
  · dsimp only
    split
    · rfl
    · rfl

end Console

namespace Shell

open Drive

/-- A line says yes if, but for blanks around it and for case, it is `yes` or `y`. -/
def saysYes : LineInput → Bool
  | .confirmed t => Text.sameFold (Text.trim t) "yes" || Text.sameFold (Text.trim t) "y"
  | .cancelled => false

def answerOf : LineInput → Answer
  | .confirmed t => .ofText t
  | .cancelled => .cancel

theorem answerOf_eq_yes_iff (input : LineInput) : answerOf input = .yes ↔ saysYes input = true := by
  cases input with
  | cancelled => decide
  | confirmed t =>
    unfold answerOf saysYes Answer.ofText
    dsimp only
    split
    · simp_all
    · split
      · simp_all
      · simp_all

def question (path : Text) : Text := "Delete " ++ path ++ "? (Yes/No/Cancel) "

/-- What is written when a question about `path` was answered. -/
def response (path : Text) : Answer → Text
  | .yes => "Deleting " ++ path ++ ".\r\n"
  | .cancel => "Cancelled.\r\n"
  | .other => []

/-- All that a question about `path` and its answer write. -/
def exchange (path : Text) (input : LineInput) : Text :=
  question path ++ "\r\n" ++ response path (answerOf input)

def announcement (verbose : Bool) (path : Text) : Text :=
  if verbose then "Deleting " ++ path ++ "\r\n" else []

/-- The line that answers a question about `path`, and the console then. -/
def asked (path : Text) (c : Console) : LineInput × Console :=
  (((c.put (question path).bytes).readLine answerLength).1,
    ((c.put (question path).bytes).readLine answerLength).2.put (Text.bytes "\r\n"))

def respond (path : Text) (c : Console) : Answer → Console
  | .other => c
  | answer => c.put (response path answer).bytes

/-- Whether the deletion of `path` goes ahead, and the console at that point. -/
def consent (force verbose : Bool) (path : Text) (c : Console) : Bool × Console :=
  if force then (true, if verbose then c.put (announcement true path).bytes else c)
  else (saysYes (asked path c).1, respond path (asked path c).2 (answerOf (asked path c).1))

theorem keyboard_consent_force (verbose : Bool) (path : Text) (c : Console) :
    (consent true verbose path c).2.keyboard = c.keyboard := by
  cases verbose <;> rfl

theorem output_consent_force (verbose : Bool) (path : Text) (c : Console) :
    (consent true verbose path c).2.output = c.output ++ (announcement verbose path).bytes := by
  cases verbose with
  | true => exact Console.output_put _ c
  | false => exact (List.append_nil _).symm

theorem keyboard_respond (path : Text) (c : Console) (answer : Answer) :
    (respond path c answer).keyboard = c.keyboard := by
  cases answer <;> rfl

theorem output_respond (path : Text) (c : Console) (answer : Answer) :
    (respond path c answer).output = c.output ++ (response path answer).bytes := by
  cases answer with
  | yes => exact Console.output_put _ c
  | cancel => exact Console.output_put _ c
  | other => exact (List.append_nil _).symm

theorem consent_ask (verbose : Bool) (path : Text) (c : Console) :
    (consent false verbose path c).1 = saysYes (c.readLine answerLength).1 ∧
      (consent false verbose path c).2.keyboard = (c.readLine answerLength).2.keyboard ∧
      (consent false verbose path c).2.output =
        c.output ++ Text.bytes (exchange path (c.readLine answerLength).1) := by
  have hsame : (c.put (question path).bytes).keyboard = c.keyboard := rfl
  obtain ⟨hline, hkeyboard⟩ := Console.readLine_congr hsame answerLength
  have houtput : (asked path c).2.output =
      c.output ++ (question path).bytes ++ Text.bytes "\r\n" := by
    unfold asked
    dsimp only
    rw [Console.output_put, Console.output_readLine, Console.output_put]
  have hinput : (asked path c).1 = (c.readLine answerLength).1 := hline
  have hconsent : consent false verbose path c =
      (saysYes (asked path c).1, respond path (asked path c).2 (answerOf (asked path c).1)) := rfl
  rw [hconsent, hinput]
  refine ⟨rfl, ?_, ?_⟩
  · exact (keyboard_respond path _ _).trans hkeyboard
  · apply (output_respond path _ _).trans
    rw [houtput, exchange, Text.bytes_append, Text.bytes_append]
    simp only [List.append_assoc]

/-- The console after all these names. -/
def consents (force verbose : Bool) (dir : Text) (names : List Text) (c : Console) : Console :=
  names.foldl (fun c name => (consent force verbose (PathText.join dir name) c).2) c

/-- The names up to the first whose deletion is not granted. -/
def granted (force verbose : Bool) (dir : Text) : List Text → Console → List Text
  | [], _ => []
  | name :: names, c =>
    let (go, c) := consent force verbose (PathText.join dir name) c
    if go then name :: granted force verbose dir names c else []

theorem granted_force (verbose : Bool) (dir : Text) (names : List Text) (c : Console) :
    granted true verbose dir names c = names := by
  induction names generalizing c with
  | nil => rfl
  | cons name names ih => exact congrArg (name :: ·) (ih _)

theorem consents_force (verbose : Bool) (dir : Text) (names : List Text) (c : Console) :
    (consents true verbose dir names c).keyboard = c.keyboard ∧
      (consents true verbose dir names c).output =
        c.output ++
          Text.bytes (names.flatMap fun name => announcement verbose (PathText.join dir name)) := by
  induction names generalizing c with
  | nil => exact ⟨rfl, (List.append_nil _).symm⟩
  | cons name names ih =>
    obtain ⟨hkeyboard, houtput⟩ := ih (consent true verbose (PathText.join dir name) c).2
    constructor
    · exact hkeyboard.trans (keyboard_consent_force verbose _ c)
    · apply houtput.trans
      rw [output_consent_force, List.flatMap_cons, Text.bytes_append, List.append_assoc]

theorem granted_ask (verbose : Bool) (dir : Text) (names : List Text) (c : Console) :
    granted false verbose dir names c =
      names.take ((c.readLines answerLength names.length).1.takeWhile saysYes).length := by
  induction names generalizing c with
  | nil => rfl
  | cons name names ih =>
    obtain ⟨hgo, hkeyboard, _⟩ := consent_ask verbose (PathText.join dir name) c
    obtain ⟨hlines, _⟩ := Console.readLines_congr hkeyboard answerLength names.length
    have hread : (c.readLines answerLength (name :: names).length).1 = (c.readLine answerLength).1 ::
        ((c.readLine answerLength).2.readLines answerLength names.length).1 := rfl
    unfold granted
    dsimp only
    rw [hgo, ih, hlines, hread]
    cases hyes : saysYes (c.readLine answerLength).1 with
    | true =>
      rw [List.takeWhile_cons_of_pos hyes]
      rfl
    | false =>
      rw [List.takeWhile_cons_of_neg (by simp [hyes])]
      rfl

/-- What is written when the lines answer the questions about these names. -/
def dialogue (dir : Text) (names : List Text) (inputs : List LineInput) : Text :=
  (List.zipWith (fun name input => exchange (PathText.join dir name) input) names inputs).flatten

theorem dialogue_take (dir : Text) (names : List Text) (inputs : List LineInput) :
    dialogue dir names (inputs.take names.length) = dialogue dir names inputs := by
  induction names generalizing inputs with
  | nil => rfl
  | cons name names ih =>
    cases inputs with
    | nil => rfl
    | cons input inputs => exact congrArg (exchange (PathText.join dir name) input ++ ·) (ih inputs)

theorem consents_ask (verbose : Bool) (dir : Text) (names : List Text) (c : Console) :
    (consents false verbose dir names c).keyboard =
        (c.readLines answerLength names.length).2.keyboard ∧
      (consents false verbose dir names c).output =
        c.output ++ (dialogue dir names (c.readLines answerLength names.length).1).bytes := by
  induction names generalizing c with
  | nil => exact ⟨rfl, (List.append_nil _).symm⟩
  | cons name names ih =>
    obtain ⟨_, hkeyboard, houtput⟩ := consent_ask verbose (PathText.join dir name) c
    obtain ⟨hlines, hrest⟩ := Console.readLines_congr hkeyboard answerLength names.length
    obtain ⟨hkeyboards, houtputs⟩ := ih (consent false verbose (PathText.join dir name) c).2
    constructor
    · exact hkeyboards.trans hrest
    · apply houtputs.trans
      have hdialogue : dialogue dir (name :: names) (c.readLines answerLength (names.length + 1)).1 =
          exchange (PathText.join dir name) (c.readLine answerLength).1 ++ dialogue dir names
            ((c.readLine answerLength).2.readLines answerLength names.length).1 := rfl
      rw [houtput, hlines, List.length_cons, hdialogue, Text.bytes_append, List.append_assoc]

variable {m : Machine} {b : Heap} {held : Nat}

theorem ask_apply (path : Text) (m : Machine) :
    ask path m =
      .ok (answerOf (asked path m.console).1) { m with console := (asked path m.console).2 } := by
  have hprint : print (question path) m =
      .ok () { m with console := m.console.put (question path).bytes } := rfl
  have hline : ∀ m : Machine, Shell.readLine answerLength m = .ok (m.console.readLine answerLength).1
      { m with console := (m.console.readLine answerLength).2 } := fun _ => rfl
  have hask : ask path = (do
      print (question path)
      let input ← Shell.readLine answerLength
      print "\r\n"
      match input with
      | .confirmed t => return .ofText t
      | .cancelled => return .cancel) := rfl
  rw [hask, bind_apply, hprint]
  dsimp only
  rw [bind_apply, hline]
  unfold asked
  dsimp only
  cases ((m.console.put (question path).bytes).readLine answerLength).1 <;> rfl

/-- An item is unlinked if there is consent. -/
theorem deleteOne_eq (force verbose : Bool) (path : Text) (m : Machine) :
    deleteOne force verbose path m =
      if (consent force verbose path m.console).1 then
        (drive (Drive.unlink path) >>= fun _ => pure Flow.go)
          { m with console := (consent force verbose path m.console).2 }
      else .ok .halt { m with console := (consent force verbose path m.console).2 } := by
  cases force with
  | true => cases verbose <;> rfl
  | false =>
    have hconsent : consent false verbose path m.console = (saysYes (asked path m.console).1,
      respond path (asked path m.console).2 (answerOf (asked path m.console).1)) := rfl
    have hgo := answerOf_eq_yes_iff (asked path m.console).1
    unfold deleteOne
    rw [if_neg Bool.false_ne_true, bind_apply, ask_apply, hconsent]
    dsimp only
    cases hanswer : answerOf (asked path m.console).1 with
    | yes =>
      rw [if_pos (hgo.mp hanswer)]
      rfl
    | cancel =>
      rw [if_neg (by simp [← hgo, hanswer])]
      rfl
    | other =>
      rw [if_neg (by simp [← hgo, hanswer])]
      rfl

variable {source : Node} {names : List Text} {dir : Text}

theorem granted_cons (force verbose : Bool) (dir name : Text) (names : List Text) (c : Console) :
    granted force verbose dir (name :: names) c =
      if (consent force verbose (PathText.join dir name) c).1 then
        name :: granted force verbose dir names (consent force verbose (PathText.join dir name) c).2
      else [] := rfl

theorem deleteOne_declined {force verbose : Bool} {path : Text}
    (hgo : (consent force verbose path m.console).1 = false) :
    deleteOne force verbose path m =
      .ok .halt { m with console := (consent force verbose path m.console).2 } := by
  rw [deleteOne_eq, hgo, if_neg Bool.false_ne_true]

theorem deleteOne_refused {force verbose : Bool} {path : Text} {e : Error} (hf : m.drive.faults = [])
    (hgo : (consent force verbose path m.console).1 = true)
    (he : Volume.unlink path m.drive.volume = .error e m.drive.volume) :
    deleteOne force verbose path m =
      .error (.failed e) { m with console := (consent force verbose path m.console).2 } := by
  have hunlink : Drive.unlink path m.drive = .error e m.drive := by
    unfold Drive.unlink
    rw [change_of_faultless hf, onVolume_error he]
  have hdrive := drive_error (m := { m with console := (consent force verbose path m.console).2 }) hunlink
  rw [deleteOne_eq, hgo, if_pos rfl, bind_apply, hdrive]

theorem deleteOne_done {force verbose : Bool} {path : Text} {w : Volume} (hf : m.drive.faults = [])
    (hgo : (consent force verbose path m.console).1 = true)
    (hw : Volume.unlink path m.drive.volume = .ok () w) :
    deleteOne force verbose path m = .ok .go { m with
      console := (consent force verbose path m.console).2, drive := { m.drive with volume := w } } := by
  have hunlink : Drive.unlink path m.drive = .ok () { m.drive with volume := w } := by
    unfold Drive.unlink
    rw [change_of_faultless hf, onVolume_ok hw]
  have hdrive := drive_ok (m := { m with console := (consent force verbose path m.console).2 }) hunlink
  rw [deleteOne_eq, hgo, if_pos rfl, bind_apply, hdrive]
  rfl

/-- The names are asked about and unlinked in turn, until one gets no consent or the volume
refuses. -/
theorem deleteEach_ok (force verbose : Bool) (hf : m.drive.faults = [])
    (hw : m.drive.volume.WellFormed) (hleads : m.drive.volume.directory.LeadsTo dir source.path.key)
    (hsource : ∀ c ∈ source.path, Path.IsName c) (hnames : ∀ t ∈ names, Path.IsName t)
    (hb : b.Bears held m.heap)
    (hroom : ∀ t ∈ names, b.inUse + (held + Heap.textBlocks [PathText.join dir t]) ≤ b.capacity) :
    ∃ done result w h, b.Bears held h ∧
      deleteEach force verbose dir names m = .ok result { m with
        heap := h
        console := consents force verbose dir (names.take (done.length + 1)) m.console
        drive := { m.drive with volume := w } } ∧
      Volume.Removal source (granted force verbose dir names m.console) m.drive.volume done result w := by
  induction names generalizing m with
  | nil => exact ⟨[], .ok (), m.drive.volume, m.heap, hb, rfl, .nil source _⟩
  | cons name names ih =>
    have hname := hnames name List.mem_cons_self
    have hunlink := Volume.unlink_congr (Volume.find_join hsource hname hleads)
    have hroom' := hroom name List.mem_cons_self
    rw [granted_cons]
    unfold deleteEach
    dsimp only
    generalize hpath : PathText.join dir name = path at hunlink hroom'
    rw [bind_apply]
    let asked : Machine := { m with console := (consent force verbose path m.console).2 }
    have hfirst : consents force verbose dir ((name :: names).take (([] : List Text).length + 1))
        m.console = asked.console := by
      rw [show asked.console = (consent force verbose path m.console).2 from rfl, ← hpath]
      rfl
    cases hgo : (consent force verbose path m.console).1 with
    | false =>
      obtain ⟨h, hheap, hx⟩ := withPaths_outcome [path] hb hroom'
        (deleteOne force verbose path) asked fun h =>
          outcome_ok (deleteOne_declined (m := { m with heap := h }) hgo)
      refine ⟨[], .ok (), m.drive.volume, h, hheap, ?_, .nil source _⟩
      rw [hx, hfirst]
      rfl
    | true =>
      rcases Volume.unlink_place_cases hw hsource hname with ⟨e, he⟩ | ⟨w, hok, hw', hwithout⟩
      · obtain ⟨h, hheap, hx⟩ := withPaths_outcome [path] hb hroom'
          (deleteOne force verbose path) asked fun h =>
            outcome_failed (deleteOne_refused (m := { m with heap := h }) hf hgo (hunlink.trans he))
        refine ⟨[], .error e, m.drive.volume, h, hheap, ?_, .refused he⟩
        rw [hx, hfirst]
        rfl
      · obtain ⟨h, hheap, hx⟩ := withPaths_outcome [path] hb hroom'
          (deleteOne force verbose path) { asked with drive := { m.drive with volume := w } } fun h =>
            outcome_ok (deleteOne_done (m := { m with heap := h }) hf hgo (hunlink.trans hok))
        obtain ⟨done, result, w', h', hheap', hrest, hremoval⟩ := ih
          (m := { asked with heap := h, drive := { m.drive with volume := w } }) hf hw'
          (hwithout.directory ▸ hleads) (fun t ht => hnames t (List.mem_cons_of_mem name ht))
          hheap (fun t ht => hroom t (List.mem_cons_of_mem name ht))
        refine ⟨name :: done, result, w', h', hheap', ?_, .cons hok hremoval⟩
        rw [hx]
        dsimp only
        rw [hrest, List.length_cons, List.take_succ_cons, consents, consents, List.foldl_cons, hpath]

variable {pattern path : Text} {d : Drive}

/-- Enough of the heap for the parts of the path, all names at once and the path of each. -/
def RoomToDelete (dir pattern : Text) (names : List Text) (h : Heap) : Prop :=
  h.RoomFor ([dir, pattern] ++ names) ∧
  ∀ name ∈ names, h.RoomFor ([dir, pattern] ++ names ++ [PathText.join dir name])

/-- What is written when all is done. -/
def ending (verbose : Bool) : Text := if verbose then "\r\n" else []

theorem print_ending (verbose : Bool) (next : Shell Unit) (m : Machine) :
    ∃ c, (if verbose then print "\r\n" >>= fun _ => next else next : Shell Unit) m =
        next { m with console := c } ∧
      c.keyboard = m.console.keyboard ∧
      c.output = m.console.output ++ Text.bytes (ending verbose) := by
  cases verbose with
  | true => exact ⟨_, rfl, rfl, Console.output_put _ _⟩
  | false => exact ⟨m.console, rfl, rfl, (List.append_nil _).symm⟩

/-- The card after the names have been gathered is the same whoever is asked then. -/
theorem delete_run (hf : d.faults = []) (hw : d.volume.WellFormed)
    (hsplit : PathText.split path = .matching dir pattern)
    (hsource : d.volume.directoryAt? dir = some source)
    (hnames : names = matchesIn pattern (d.volume.children source.path.key))
    (hroom : RoomToDelete dir pattern names b) (verbose : Bool) :
    ∃ d', Listed d d' ∧ ∀ (force : Bool) (m : Machine), m.drive = d → m.heap = b →
      ∃ done result w m',
        delete path force verbose m = ofExcept result m' ∧ m'.drive = { d' with volume := w } ∧
        Volume.Removal source (granted force verbose dir names m.console) d'.volume done result w ∧
        let c := consents force verbose dir (names.take (done.length + 1)) m.console
        m'.console.keyboard = c.keyboard ∧
          m'.console.output = c.output ++ Text.bytes (ending verbose) := by
  obtain ⟨d', ⟨i, t, rfl⟩, hwith⟩ :=
    withMatches_ok (α := Unit) (b := b) pattern hf (entriesOf_toOpen hw hsource)
  rw [← hnames] at hwith
  obtain ⟨hleads, hthere⟩ := Volume.leads_of_directoryAt? hw hsource
  have hall := hroom.1.2
  rw [Heap.textBlocks_append] at hall
  have hisName : ∀ t ∈ names, Path.IsName t := by
    intro t ht
    rw [hnames] at ht
    exact isName_of_matchesIn hw ht
  refine ⟨_, ⟨i, t, rfl⟩, ?_⟩
  rintro force m rfl rfl
  let body : List Text → Shell Unit := fun names => do
    let result ← deleteEach force verbose dir names
    if verbose then print "\r\n"
    ofExcept result
  obtain ⟨h, hheap, hpaths⟩ := withPaths_ok [dir, pattern] (Heap.bears_self m.heap hroom.1.1)
    (by omega) (withMatches dir pattern body)
  obtain ⟨h', hheap', hgathered⟩ := hwith { m with heap := h } _ body rfl hheap (by omega)
  obtain ⟨done, result, w, h'', hheap'', heach, hremoval⟩ := deleteEach_ok
    (m := { m with heap := h', drive := { m.drive with volume := m.drive.volume.listing i t } })
    force verbose hf (hw.withFiles rfl rfl rfl rfl hw.files) hleads (hw.isName_of_mem hthere) hisName
    hheap' (by
      intro t ht
      have htotal := (hroom.2 t ht).2
      rw [Heap.textBlocks_append, Heap.textBlocks_append] at htotal
      omega)
  obtain ⟨c, hprint, hkeyboard, houtput⟩ := print_ending verbose (ofExcept result) { m with
    heap := h''
    console := consents force verbose dir (names.take (done.length + 1)) m.console
    drive := { m.drive with volume := w } }
  have hbody : body names { m with
      heap := h', drive := { m.drive with volume := m.drive.volume.listing i t } } =
      ofExcept result { m with heap := h'', console := c, drive := { m.drive with volume := w } } := by
    show (deleteEach force verbose dir names >>= _) _ = _
    rw [bind_apply, heach]
    exact hprint
  obtain ⟨h₁, hheap₁, hx₁⟩ := closing_releaseTexts hbody hheap''
  obtain ⟨h₂, _, hx₂⟩ := closing_releaseTexts (hgathered.trans hx₁) hheap₁
  have hdelete : delete path force verbose m =
      withPaths [dir, pattern] (withMatches dir pattern body) m := by
    unfold delete
    dsimp only
    rw [hsplit]
    rfl
  exact ⟨done, result, w, _, hdelete.trans (hpaths.trans hx₂), rfl, hremoval, hkeyboard, houtput⟩

/-- What deleting these names of a directory has to come to: some of them are gone, and nothing else
is; and they are all that were to be deleted, or the volume refuses the next one. -/
structure Deleted (v : Volume) (source : Node) (names done : List Text) (result : Except Error Unit)
    (w : Volume) : Prop where
  /-- The volume has accepted to unlink each of them, one after the other, from the state in which the
  enumeration of the directory has left it. -/
  unlinked : ∃ i t, Volume.unlinkEach source done (v.listing i t) = .ok () w
  without : v.Without source done w
  ends : (done = names ∧ result = .ok ()) ∨
    ∃ name todo e, names = done ++ name :: todo ∧
      Volume.unlink (Volume.place source name) w = .error e w ∧ result = .error e

theorem deleted_of_removal {v w : Volume} {i : Nat} {t : Table Nat (List Entry)} {done : List Text}
    {result : Except Error Unit} (hw : v.WellFormed) (hthere : v.node? source.path.key = some source)
    (hnames : ∀ t ∈ names, Path.IsName t)
    (h : Volume.Removal source names (v.listing i t) done result w) :
    Deleted v source names done result w := by
  have hlisting : (v.listing i t).WellFormed := hw.withFiles rfl rfl rfl rfl hw.files
  obtain ⟨_, hwithout⟩ := h.without hlisting (hw.isName_of_mem hthere) hnames
  exact ⟨⟨i, t, h.removed⟩, ⟨hwithout.node, hwithout.directory, hwithout.label, hwithout.stamp,
    hwithout.nextOrder, hwithout.files⟩, h.ends⟩

/-- Without force each match is asked about in turn, up to the first answer that is not yes or the
first entry that the volume refuses to unlink. What was unlinked by then is gone and all else is as it
was, nothing more is read or written, and the result is that of the last one. With force nothing is
asked, and card and result are those that come from nothing but yes. -/
theorem delete_matches (label : Text) (ops : List Volume.Operation) (m : Machine)
    (hf : m.drive.faults = []) (hv : m.drive.volume = (Volume.labelled label).runAll ops)
    (path dir pattern : Text) (hsplit : PathText.split path = .matching dir pattern) (source : Node)
    (hsource : m.drive.volume.directoryAt? dir = some source) (verbose : Bool) :
    let v := m.drive.volume
    let names := matchesIn pattern (v.children source.path.key)
    RoomToDelete dir pattern names m.heap →
    (let inputs := (m.console.readLines answerLength names.length).1
      let affirmed := names.take (inputs.takeWhile saysYes).length
      ∃ done result m', delete path false verbose m = ofExcept result m' ∧
        Deleted v source affirmed done result m'.drive.volume ∧
        let asked := names.take (done.length + 1)
        m'.console.keyboard = (m.console.readLines answerLength asked.length).2.keyboard ∧
        m'.console.output =
          m.console.output ++ Text.bytes (dialogue dir asked inputs ++ ending verbose)) ∧
    ∃ done result m', delete path true verbose m = ofExcept result m' ∧
      Deleted v source names done result m'.drive.volume ∧
      m'.console.keyboard = m.console.keyboard ∧
      m'.console.output = m.console.output ++ Text.bytes
        ((names.take (done.length + 1)).flatMap
          (fun name => announcement verbose (PathText.join dir name)) ++ ending verbose) ∧
      ∀ c : Console, (c.readLines answerLength names.length).1.all saysYes = true →
        ∃ m'', delete path false verbose { m with console := c } = ofExcept result m'' ∧
          m''.drive = m'.drive := by
  intro v names hroom
  have hw : v.WellFormed := .of_runAll hv
  have hthere := (Volume.leads_of_directoryAt? hw hsource).2
  have hisName : ∀ t ∈ names, Path.IsName t := fun t ht => isName_of_matchesIn hw ht
  obtain ⟨_, ⟨i, t, rfl⟩, hrun⟩ := delete_run (b := m.heap) hf hw hsplit hsource rfl hroom verbose
  constructor
  · obtain ⟨done, result, w, m', hx, hdrive, hremoval, hkeyboard, houtput⟩ := hrun false m rfl rfl
    rw [granted_ask] at hremoval
    obtain ⟨hread, hwritten⟩ := consents_ask verbose dir (names.take (done.length + 1)) m.console
    have hdeleted := deleted_of_removal hw hthere
      (fun t ht => hisName t (List.mem_of_mem_take ht)) hremoval
    refine ⟨done, result, m', hx, ?_, hkeyboard.trans hread, ?_⟩
    · rw [hdrive]
      exact hdeleted
    · have hle : (names.take (done.length + 1)).length ≤ names.length := by simp
      rw [houtput, hwritten, ← Console.take_readLines hle, dialogue_take, Text.bytes_append,
        List.append_assoc]
  · obtain ⟨done, result, w, m', hx, hdrive, hremoval, hkeyboard, houtput⟩ := hrun true m rfl rfl
    rw [granted_force] at hremoval
    obtain ⟨hread, hwritten⟩ := consents_force verbose dir (names.take (done.length + 1)) m.console
    refine ⟨done, result, m', hx, ?_, hkeyboard.trans hread, ?_, ?_⟩
    · rw [hdrive]
      exact deleted_of_removal hw hthere hisName hremoval
    · rw [houtput, hwritten, Text.bytes_append, List.append_assoc]
    · intro c hyes
      obtain ⟨done', result', w', m'', hx', hdrive', hremoval', _⟩ :=
        hrun false { m with console := c } rfl rfl
      have hall : ((c.readLines answerLength names.length).1.takeWhile saysYes) =
          (c.readLines answerLength names.length).1 :=
        List.takeWhile_eq_self_iff.mpr (by simpa using hyes)
      rw [granted_ask, hall, Console.length_readLines, List.take_length] at hremoval'
      obtain ⟨rfl, rfl⟩ := hremoval.eq hremoval'
      exact ⟨m'', hx', hdrive'.trans hdrive.symm⟩

/-- A card with three files in `/d`, and a user who says yes, then no, and would say yes again. -/
def threeFiles : Machine :=
  Machine.boot {} ((Volume.labelled []).runAll
      [.writeFile "/d/a" [1], .writeFile "/d/b" [2], .writeFile "/d/c" []]) []
    { keyboard := .answers [.confirmed " Y ", .confirmed "no", .confirmed "yes"] } (.hosted 0 0) .absent

/-- Only the first is deleted, and the user is asked twice. -/
theorem delete_matches_affirmed :
    ∃ source done result m', threeFiles.drive.volume.directoryAt? "/d" = some source ∧
      delete "/d/*" false true threeFiles = ofExcept result m' ∧
      Deleted threeFiles.drive.volume source ["a".toList] done result m'.drive.volume ∧
      (done = ["a".toList] → m'.console.keyboard = .answers [.confirmed "yes"]) := by
  obtain ⟨source, hsource⟩ : ∃ d, threeFiles.drive.volume.directoryAt? "/d" = some d :=
    Option.isSome_iff_exists.mp (by decide +kernel)
  have hpath : (threeFiles.drive.volume.directoryAt? "/d").map Node.path = some (["d"] : Path) := by
    decide +kernel
  rw [hsource] at hpath
  have hnames : matchesIn "*" (threeFiles.drive.volume.children source.path.key) =
      (["a", "b", "c"] : List Text) := by
    rw [Option.some.inj hpath]
    cbv
  have hroom : RoomToDelete "/d" "*" ["a", "b", "c"] threeFiles.heap := by
    unfold RoomToDelete Heap.RoomFor
    decide +kernel
  have h := delete_matches [] _ threeFiles rfl rfl "/d/*" "/d" "*" (by decide +kernel) source hsource
    true
  simp only [hnames] at h
  obtain ⟨done, result, m', hx, hdeleted, hkeyboard, _⟩ := (h hroom).1
  have haffirmed : (["a", "b", "c"] : List Text).take
      ((threeFiles.console.readLines answerLength 3).1.takeWhile saysYes).length = ["a".toList] := by
    decide +kernel
  refine ⟨source, done, result, m', hsource, hx, haffirmed ▸ hdeleted, ?_⟩
  rintro rfl
  rw [hkeyboard]
  decide +kernel

end Shell

end CardShell
