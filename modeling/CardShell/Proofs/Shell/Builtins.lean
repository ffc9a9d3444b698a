import CardShell.Command.Dispatch
import CardShell.Proofs.Shell.Commands

/-!
The built-in commands, as put together from brackets and quiet calls of the driver: all but those
that change the directory, mount, rename, or run lines in turn.
-/

set_option autoImplicit false

namespace CardShell

/-- The commands that leave alone which directory is the current one, and which is shown. -/
def Builtin.isQuiet : Builtin → Bool
  | .changeDirectory | .mount | .rename | .batch => false
  | _ => true

def Builtin.setsVariables : Builtin → Bool
  | .setText | .setNumber | .setTemplate | .unset => true
  | _ => false

namespace Shell

open CardShell.Action

variable {α : Type} {C : (α : Type) → Shell α → Prop}

section Arguments

theorem requiredWord_cases (args : Text) (m : Machine) :
    ((Arguments.nextWord args).1 = none ∧
      requiredWord args m = .error (.failed .invalidParameter) m) ∨
    ∃ w rest, (Arguments.nextWord args).1 = some w ∧ requiredWord args m = .ok (w, rest) m := by
  unfold requiredWord
  rcases Arguments.nextWord args with ⟨_ | w, rest⟩
  · exact Or.inl ⟨rfl, rfl⟩
  · exact Or.inr ⟨w, rest, rfl, rfl⟩

theorem plain_required (x : Option α × Text) : Plain (required x) := by
  rcases x with ⟨_ | a, rest⟩
  · exact plain_fail _
  · exact plain_pure _

theorem plain_requiredBelow (bound : Nat) (args : Text) : Plain (requiredBelow bound args) :=
  plain_bind (plain_required _) fun _ => plain_ite (plain_pure _) (plain_fail _)

theorem plain_nameAndText (args : Text) : Plain (nameAndText args) :=
  plain_bind (plain_required _) fun _ => plain_ite (plain_fail _) (plain_pure _)

theorem plain_twoDigitsAt (t : Text) (i : Nat) : Plain (twoDigitsAt t i) := by
  unfold twoDigitsAt
  split
  · exact plain_ite (plain_pure _) (plain_fail _)
  · exact plain_fail _

theorem plain_expand (t : Text) : Plain (expand t) :=
  plain_bind plain_get fun _ => plain_ofExcept _

theorem keeps_evaluate {P : Machine → Prop} (t : Text) : Keeps P (evaluate t) :=
  keeps_bind keeps_get fun _ => Action.keeps_ofExcept _

end Arguments

theorem plain_writeSetting (setting : UInt8) (t : Text) : Plain (writeSetting setting t) := by
  unfold writeSetting
  cases Expand.integer? t with
  | none => exact plain_fail _
  | some n => exact plain_printBytes _

theorem plain_writeCode (c : CodeVariable) (t : Text) : Plain (writeCode c t) := by
  refine plain_bind plain_get fun m => ?_
  cases c with
  | time =>
    refine plain_bind (plain_twoDigitsAt t 0) fun hour => ?_
    refine plain_bind (plain_twoDigitsAt t 3) fun minute => ?_
    exact plain_bind (plain_twoDigitsAt t 6) fun second => plain_setClock _
  | year =>
    dsimp only
    cases Expand.integer? t with
    | none => exact plain_fail _
    | some n => exact plain_ite (plain_setClock _) (plain_fail _)
  | keyboard => exact plain_writeSetting _ t
  | console => exact plain_writeSetting _ t
  | date => exact plain_fail _
  | directory => exact plain_fail _

theorem plain_hotkey (args : Text) : Plain (hotkey args) := by
  unfold hotkey
  rcases Arguments.nextNumber args with ⟨_ | n, rest⟩
  · exact plain_bind plain_get fun m => plain_print _
  · apply plain_ite
    · exact plain_print _
    · apply plain_ite
      · refine plain_bind (plain_setHotkey n none) fun old => ?_
        cases old with
        | none => exact plain_print _
        | some t => exact plain_print _
      · exact plain_map _ (plain_setHotkey n _)

theorem plain_time (args : Text) : Plain (time args) := by
  have hprint : Plain ((get : Shell Machine) >>= fun m =>
      print (m.clock.now.text ++ "\n\r")) := plain_bind plain_get fun m => plain_print _
  have hset : ∀ (year : Nat) (rest : Text), Plain (requiredBelow 256 rest >>= fun month =>
      requiredBelow 256 month.2 >>= fun day => requiredBelow 256 day.2 >>= fun hour =>
      requiredBelow 256 hour.2 >>= fun minute => requiredBelow 256 minute.2 >>= fun second =>
      setClock ⟨year, month.1, day.1, hour.1, minute.1, second.1⟩ >>= fun _ =>
      (get : Shell Machine) >>= fun m => print (m.clock.now.text ++ "\n\r")) := by
    intro year rest
    refine plain_bind (plain_requiredBelow 256 _) fun month => ?_
    refine plain_bind (plain_requiredBelow 256 _) fun day => ?_
    refine plain_bind (plain_requiredBelow 256 _) fun hour => ?_
    refine plain_bind (plain_requiredBelow 256 _) fun minute => ?_
    refine plain_bind (plain_requiredBelow 256 _) fun second => ?_
    exact plain_bind (plain_setClock _) fun _ => hprint
  unfold time
  rcases Arguments.nextNumber args with ⟨_ | year, rest⟩
  · exact hprint
  · apply plain_ite
    · exact plain_bind (plain_fail _) fun _ => hset year rest
    · exact hset year rest

namespace Closed

theorem required (hC : Closed C) (x : Option α × Text) : C (α × Text) (Shell.required x) :=
  hC.plain (plain_required x)

section Files

theorem typeRest (hC : Closed C) (h fuel : Nat) : C _ (Shell.typeRest h fuel) := by
  induction fuel with
  | zero => exact hC.pure _
  | succ fuel ih =>
    refine hC.bind (hC.drive (Drive.quiet_read h 512) (Drive.steady_read h 512)) fun bytes => ?_
    apply hC.ite
    · exact hC.pure _
    · exact hC.bind (hC.printBytes _) fun _ => ih

theorem typeFile (hC : Closed C) (path : Text) : C _ (Shell.typeFile path) :=
  hC.withFile path .read fun h => hC.bind hC.get fun _ => hC.typeRest h _

end Files

section Commands

section

variable {b : Builtin} {runLine : Text → Shell Unit} {args : Text}

theorem assign (hC : Closed C)
    (hv : ∀ f : Variables → Variables, C PUnit (modify fun m => { m with store := f m.store }))
    (label : Text) (value : Value) : C Unit (Shell.assign label value) := by
  refine hC.bind hC.get fun m => ?_
  split
  · cases value with
    | text t => exact hC.plain (plain_writeCode _ t)
    | template t => exact hC.plain (plain_writeCode _ t)
    | number n => exact hC.plain (plain_writeCode _ _)
    | code c => exact hC.fail _
  · exact hv _

/-- An expression may stop the machine, so it has to be known how it is evaluated; and a property may
depend on the variables, so it has to be known that they can be written. -/
theorem performSetter (hC : Closed C) (hb : b.setsVariables = true)
    (he : b = .setNumber → ∀ t, C Value (Shell.evaluate t))
    (hv : ∀ f : Variables → Variables, C PUnit (modify fun m => { m with store := f m.store })) :
    C Unit (b.perform runLine args) := by
  cases b with
  | setText =>
    refine hC.bind (hC.plain (plain_nameAndText args)) fun pair => ?_
    exact hC.bind (hC.plain (plain_expand _)) fun t => hC.assign hv _ _
  | setNumber =>
    refine hC.bind (hC.plain (plain_nameAndText args)) fun pair => ?_
    exact hC.bind (he rfl _) fun value => hC.assign hv _ value
  | setTemplate =>
    refine hC.bind (hC.plain (plain_nameAndText args)) fun pair => ?_
    exact hC.assign hv _ _
  | unset => exact hC.bind (hC.required _) fun pattern => hv _
  | _ => cases hb

theorem perform (hC : Closed C) (hb : b.isQuiet = true)
    (hw : b = .listDirectory → C Unit (Shell.stop .tooWide))
    (hset : b.setsVariables = true → C Unit (b.perform runLine args)) :
    C Unit (b.perform runLine args) := by
  cases b with
  | changeDirectory => cases hb
  | mount => cases hb
  | rename => cases hb
  | batch => cases hb
  | listDirectory => exact hC.list (hw rfl) _ _
  | clear => exact hC.printBytes _
  | copy =>
    refine hC.bind (hC.required _) fun src => hC.bind (hC.required _) fun dst => ?_
    exact hC.copy _ _ true
  | credits => exact hC.print _
  | delete =>
    refine hC.bind (hC.required _) fun w => ?_
    apply hC.ite
    · exact hC.bind (hC.required _) fun path => hC.delete _ true true
    · exact hC.delete _ false true
  | disc => exact hC.plain (plain_modify fun _ => .of_console rfl rfl rfl rfl rfl rfl)
  | echo =>
    refine hC.bind (hC.plain (plain_expand args)) fun t => ?_
    exact hC.bind (hC.printBytes _) fun _ => hC.print _
  | help => exact hC.bind hC.get fun m => hC.print _
  | jump =>
    refine hC.bind (hC.required _) fun address => ?_
    exact hC.map _ (hC.plain (plain_executor _))
  | load =>
    refine hC.bind (hC.required _) fun path => hC.bind hC.get fun m => ?_
    exact hC.map _ (hC.load _ _ 0)
  | hotkey => exact hC.plain (plain_hotkey args)
  | memory => exact hC.bind hC.get fun m => hC.print _
  | makeDirectory =>
    refine hC.bind (hC.required _) fun path => ?_
    exact hC.drive (Drive.quiet_makeDirectory _) (Drive.steady_makeDirectory _)
  | format => exact hC.printBytes _
  | run => exact hC.bind hC.get fun m => hC.runImage _ _
  | save =>
    refine hC.bind (hC.required _) fun path => hC.bind (hC.required _) fun address => ?_
    exact hC.bind (hC.required _) fun size => hC.save _ _ _
  | setText => exact hset rfl
  | setNumber => exact hset rfl
  | setTemplate => exact hset rfl
  | showVariables => exact hC.bind hC.get fun m => hC.print _
  | time => exact hC.plain (plain_time args)
  | typeFile => exact hC.bind (hC.required _) fun path => hC.typeFile _
  | unset => exact hset rfl
  | display => exact hC.bind (hC.ofExcept _) fun bytes => hC.printBytes _

end

/-- A property may depend on the directory; `hd` says that this one lets it be taken over. -/
theorem refreshDirectory (hC : Closed C)
    (hd : ∀ path, C PUnit (modify fun m => { m with directory := path })) :
    C Unit Shell.refreshDirectory := by
  refine hC.bind (hC.outcome (hC.drive (Drive.quiet_ask _ _) (Drive.steady_ask _ _))) fun r => ?_
  cases r with
  | ok path => exact hd path
  | error e => exact hC.pure _

theorem performChangeDirectory (hC : Closed C) (hr : C Unit Shell.refreshDirectory)
    (hc : ∀ path, C Unit (Shell.drive (Drive.changeDirectory path))) (runLine : Text → Shell Unit)
    (args : Text) : C Unit (Builtin.changeDirectory.perform runLine args) := by
  refine hC.bind (hC.required _) fun p => hC.bind (hC.outcome (hc _)) fun r => ?_
  exact hC.bind hr fun _ => hC.ofExcept r

theorem performRename (hC : Closed C) (hr : ∀ a b, C _ (Shell.drive (Drive.rename a b)))
    (runLine : Text → Shell Unit) (args : Text) :
    C Unit (Builtin.rename.perform runLine args) := by
  refine hC.bind (hC.required _) fun src => hC.bind (hC.required _) fun dst => ?_
  exact hC.rename hr _ _ true

end Commands

end Closed

end Shell

end CardShell
