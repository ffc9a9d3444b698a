import CardShell.Proofs.Shell.Apart
import CardShell.Proofs.Variable.Store

/-!
The variables, from one call of the shell to the next. A command that sets a variable either writes
it, where none stands for the machine, or hands its value to the machine; so the variables that
stand for the machine stay what they are, and a command that fails has written none.
-/

set_option autoImplicit false

namespace CardShell

open CardShell.Action

theorem Expression.isCode_of_evaluate {vs : Variables} {r : Readings} {t : Text} {v : Value}
    (h : evaluate vs r t = .ok v) : v.isCode = false := by
  unfold evaluate at h
  split at h
  · split at h
    · cases h
    · rename_i inner _
      cases hx : Expand.text vs r inner with
      | error e =>
        rw [hx] at h
        cases h
      | ok t =>
        rw [hx] at h
        cases h
        rfl
  · cases hx : arithmetic (wordValue vs r) _ with
    | error e =>
      rw [hx] at h
      cases h
    | ok n =>
      rw [hx] at h
      cases h
      rfl

namespace Shell

variable {α β : Type} {label : Text} {value : Value}

theorem assign_cases (label : Text) (value : Value) (m : Machine) :
    (∃ x : Shell Unit, Plain x ∧ assign label value m = x m) ∨
    (∀ v, m.store.get? label = some v → v.value.isCode = false) ∧
      assign label value m = .ok () { m with store := m.store.insert label value } := by
  unfold assign
  rw [bind_apply]
  dsimp only [get_apply]
  cases hget : m.store.get? label with
  | none => exact Or.inr ⟨by simp, rfl⟩
  | some v =>
    obtain ⟨l, x⟩ := v
    cases x with
    | code c =>
      refine Or.inl ⟨_, ?_, rfl⟩
      cases value with
      | text t => exact plain_writeCode c t
      | template t => exact plain_writeCode c t
      | number n => exact plain_writeCode c _
      | code _ => exact plain_fail _
    | _ => exact Or.inr ⟨by simp [Value.isCode], rfl⟩

/-- A step that fails has left the variables alone. -/
def Undone (x : Shell α) : Prop := ∀ m e m', x m = .error e m' → m'.store = m.store

theorem Plain.undone {x : Shell α} (hx : Plain x) : Undone x := by
  intro m e m' h
  rw [← after_error h]
  exact (hx.beside m).store

theorem Plain.undone_bind {x : Shell α} {f : α → Shell β} (hx : Plain x) (hf : ∀ a, Undone (f a)) :
    Undone (x >>= f) := by
  intro m e m' h
  rw [bind_apply] at h
  cases hm : x m with
  | ok a m₁ =>
    rw [hm] at h
    rw [hf a m₁ e m' h, ← after_ok hm]
    exact (hx.beside m).store
  | error e₁ m₁ =>
    rw [hm] at h
    cases h
    exact hx.undone m _ _ hm

theorem undone_assign (label : Text) (value : Value) : Undone (assign label value) := by
  intro m e m' h
  rcases assign_cases label value m with ⟨x, hx, he⟩ | ⟨_, he⟩
  · rw [he] at h
    exact hx.undone m e m' h
  · rw [he] at h
    cases h

theorem evaluate_apply (t : Text) (m : Machine) :
    evaluate t m = Action.ofExcept (Expression.evaluate m.store m.readings t) m := rfl

/-- Setting a variable to what an expression comes to, which is never a part of the machine. -/
theorem evaluate_assign_cases (name t : Text) (m : Machine) :
    (∃ e, (evaluate t >>= fun v => assign name v) m = .error e m) ∨
    ∃ v, v.isCode = false ∧ (evaluate t >>= fun v => assign name v) m = assign name v m := by
  rw [bind_apply, evaluate_apply]
  cases hx : Expression.evaluate m.store m.readings t with
  | error e => exact Or.inl ⟨e, rfl⟩
  | ok v => exact Or.inr ⟨v, Expression.isCode_of_evaluate hx, rfl⟩

theorem perform_unset (run : Text → Shell Unit) (args : Text) (m : Machine) :
    Builtin.unset.perform run args m = match (Arguments.nextWord args).1 with
      | none => .error (.failed .invalidParameter) m
      | some pattern => .ok () { m with store := m.store.unset pattern } := by
  have hperform : Builtin.unset.perform run args = (requiredWord args >>= fun p =>
      modify fun m => { m with store := m.store.unset p.1 }) := rfl
  rw [hperform, bind_apply]
  rcases requiredWord_cases args m with ⟨hw, hreq⟩ | ⟨w, rest, hw, hreq⟩
  · rw [hw, hreq]
  · rw [hw, hreq]
    rfl

theorem undone_setter {b : Builtin} (hb : b.setsVariables = true) (run : Text → Shell Unit)
    (args : Text) : Undone (b.perform run args) := by
  cases b with
  | setText =>
    refine (plain_nameAndText args).undone_bind fun pair => ?_
    exact (plain_expand _).undone_bind fun t => undone_assign _ _
  | setNumber =>
    refine (plain_nameAndText args).undone_bind fun pair m e m' h => ?_
    rcases evaluate_assign_cases pair.1 pair.2 m with ⟨e, he⟩ | ⟨v, _, he⟩
    · cases he.symm.trans h
      rfl
    · exact undone_assign pair.1 v m e m' (he.symm.trans h)
  | setTemplate => exact (plain_nameAndText args).undone_bind fun pair => undone_assign _ _
  | unset =>
    intro m e m' h
    rw [perform_unset] at h
    split at h
    · cases h
      rfl
    · cases h
  | _ => cases hb

def Sound (m : Machine) : Prop := m.store.Sound

theorem apart_sound : Apart Sound := by
  intro m m' hm _ hstore
  rw [Sound, hstore]
  exact hm

theorem sound_assign (hvalue : value.isCode = false) : Keeps Sound (assign label value) := by
  intro m hm
  rcases assign_cases label value m with ⟨x, hx, he⟩ | ⟨hget, he⟩
  · rw [after_congr he]
    exact apart_sound.closed.plain hx m hm
  · rw [after_ok he]
    exact Variables.Sound.insert hm hvalue hget

theorem sound_setters : KeptBySetters Sound := by
  intro b hb run args
  have hargs : Keeps Sound (nameAndText args) := apart_sound.closed.plain (plain_nameAndText args)
  cases b with
  | setText =>
    refine keeps_bind hargs fun pair => ?_
    exact keeps_bind (apart_sound.closed.plain (plain_expand _)) fun t => sound_assign rfl
  | setNumber =>
    refine keeps_bind hargs fun pair m hm => ?_
    rcases evaluate_assign_cases pair.1 pair.2 m with ⟨e, he⟩ | ⟨v, hv, he⟩
    · rw [after_error he]
      exact hm
    · rw [after_congr he]
      exact sound_assign hv m hm
  | setTemplate => exact keeps_bind hargs fun pair => sound_assign rfl
  | unset =>
    refine keeps_bind (apart_sound.closed.plain (plain_required _)) fun pattern => ?_
    exact keeps_modify fun m hm => Variables.Sound.unset hm _
  | _ => cases hb

theorem sound_executeFile (path : Text) : Keeps Sound (executeFile path) :=
  keeps_bind (apart_sound.throughout.drive _) fun _ =>
    apart_sound.throughout.runLines (apart_sound.throughout.runLineWithin sound_setters maxDepth true)
      path 1 _

end Shell

namespace Variables

open Shell

/-- The variables once the calls have been served, each by a machine of its own. -/
def through (vs : Variables) (calls : List (Machine × Request)) : Variables :=
  calls.foldl (fun vs call => (call.2.serve.after { call.1 with store := vs }).store) vs

theorem Sound.through {vs : Variables} (h : vs.Sound) (calls : List (Machine × Request)) :
    (vs.through calls).Sound := by
  induction calls generalizing vs with
  | nil => exact h
  | cons call calls ih =>
    refine ih (apart_sound.throughout.serve sound_setters ?_ call.2 { call.1 with store := vs } h)
    exact fun x => keeps_zoom _ fun m hm => hm

/-- Whatever has been asked of machines that pass the variables on to one another: halving finds what
is there, and the variables that stand for the machine are those of the start. This goes for each
command that another line performs as well; a setter among these that fails leaves all variables, and
`unset` takes out those that its pattern matches and that do not stand for the machine. -/
theorem system_through (calls : List (Machine × Request)) (m : Machine) (line : Text) :
    let vs := system.through calls
    vs.Sound ∧ (∀ path, ((executeFile path).after { m with store := vs }).store.Sound) ∧
    ∀ c ∈ performed line { m with store := vs },
      let ws := c.machine.store
      ws.Sound ∧
      (∀ label, ws.lookUp label = ws.get? label) ∧
      (∀ label value, ws.put label value = ws.insert label value) ∧
      (c.command.setsVariables = true → ∀ run e m',
        c.command.perform run c.args c.machine = .error e m' → m'.store = ws) ∧
      (c.command = .unset → ∀ run pattern, (Arguments.nextWord c.args).1 = some pattern →
        ∃ m', c.command.perform run c.args c.machine = .ok () m' ∧
          m'.store = (ws.doomed pattern).foldl (fun vs label => takeOut label vs) ws ∧
          m'.store.Sublist ws ∧ ∀ v, v ∈ m'.store ↔
            v ∈ ws ∧ ¬ (v.value.isCode = false ∧ Glob.isMatch pattern v.label = true)) := by
  intro vs
  have hvs : vs.Sound := sound_system.through calls
  refine ⟨hvs, fun path => sound_executeFile path { m with store := vs } hvs, fun c hc => ?_⟩
  have hc : c.machine.store.Sound :=
    apart_sound.holds_performedWithin sound_setters maxDepth line (m := { m with store := vs }) hvs c hc
  refine ⟨hc, hc.ordered.lookUp_eq, hc.ordered.put_eq, ?_, ?_⟩
  · exact fun hb run e m' => undone_setter hb run c.args c.machine e m'
  · intro hb run pattern hw
    refine ⟨{ c.machine with store := c.machine.store.unset pattern }, ?_, ?_, ?_, ?_⟩
    · rw [hb, perform_unset, hw]
    · exact hc.ordered.unset_eq pattern
    · exact List.filter_sublist
    · exact fun v => mem_unset_iff

end Variables

end CardShell
