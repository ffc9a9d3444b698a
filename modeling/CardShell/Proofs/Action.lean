import CardShell.Action

/-!
Running actions step by step, and properties of the state that an action keeps however it ends.
`Keeps` follows the shape of an action: each way to build one has a rule of its own.
-/

set_option autoImplicit false

namespace CardShell.Action

variable {ε δ σ τ α β : Type}

section Steps

@[simp] theorem pure_apply (a : α) (s : σ) : (pure a : Action ε σ α) s = .ok a s := rfl

@[simp] theorem throw_apply (e : ε) (s : σ) : (throw e : Action ε σ α) s = .error e s := rfl

@[simp] theorem get_apply (s : σ) : (get : Action ε σ σ) s = .ok s s := rfl

@[simp] theorem set_apply (t s : σ) : (set t : Action ε σ PUnit) s = .ok ⟨⟩ t := rfl

@[simp] theorem modify_apply (f : σ → σ) (s : σ) :
    (modify f : Action ε σ PUnit) s = .ok ⟨⟩ (f s) := rfl

@[simp] theorem modifyGet_apply (f : σ → α × σ) (s : σ) :
    (modifyGet f : Action ε σ α) s = .ok (f s).1 (f s).2 := rfl

@[simp] theorem bind_apply (x : Action ε σ α) (f : α → Action ε σ β) (s : σ) :
    (x >>= f) s = match x s with
      | .ok a t => f a t
      | .error e t => .error e t := rfl

@[simp] theorem map_apply (f : α → β) (x : Action ε σ α) (s : σ) :
    (f <$> x) s = match x s with
      | .ok a t => .ok (f a) t
      | .error e t => .error e t := rfl

@[simp] theorem ofExcept_ok (a : α) (s : σ) : (ofExcept (.ok a) : Action ε σ α) s = .ok a s := rfl

@[simp] theorem ofExcept_error (e : ε) (s : σ) :
    (ofExcept (.error e) : Action ε σ α) s = .error e s := rfl

theorem query_ok {f : σ → Except ε α} {s : σ} {a : α} (h : f s = .ok a) :
    (query f : Action ε σ α) s = .ok a s := by
  rw [query, h]

theorem query_error {f : σ → Except ε α} {s : σ} {e : ε} (h : f s = .error e) :
    (query f : Action ε σ α) s = .error e s := by
  rw [query, h]

theorem query_ok_inv {f : σ → Except ε α} {s t : σ} {a : α}
    (h : (query f : Action ε σ α) s = .ok a t) : f s = .ok a ∧ s = t := by
  rw [query] at h
  cases hf : f s with
  | ok b =>
    rw [hf] at h
    cases h
    exact ⟨rfl, rfl⟩
  | error e =>
    rw [hf] at h
    cases h

/-- What ends well has ended each of its steps well. -/
theorem bind_ok_inv {x : Action ε σ α} {f : α → Action ε σ β} {s u : σ} {b : β}
    (h : (x >>= f) s = .ok b u) : ∃ a t, x s = .ok a t ∧ f a t = .ok b u := by
  rw [bind_apply] at h
  cases hx : x s with
  | ok a t =>
    rw [hx] at h
    exact ⟨a, t, rfl, h⟩
  | error e t =>
    rw [hx] at h
    cases h

/-- The state that `x` leaves, however it ends. -/
def after (x : Action ε σ α) (s : σ) : σ :=
  match x s with
  | .ok _ t => t
  | .error _ t => t

theorem after_ok {x : Action ε σ α} {s t : σ} {a : α} (h : x s = .ok a t) : x.after s = t := by
  rw [after, h]

theorem after_error {x : Action ε σ α} {s t : σ} {e : ε} (h : x s = .error e t) :
    x.after s = t := by
  rw [after, h]

theorem after_congr {x y : Action ε σ α} {s t : σ} (h : x s = y t) : x.after s = y.after t := by
  unfold after
  rw [h]

theorem after_bind_ok {x : Action ε σ α} {f : α → Action ε σ β} {s t : σ} {a : α}
    (h : x s = .ok a t) : (x >>= f).after s = (f a).after t := by
  rw [after, bind_apply, h]
  rfl

theorem after_bind_error {x : Action ε σ α} {f : α → Action ε σ β} {s t : σ} {e : ε}
    (h : x s = .error e t) : (x >>= f).after s = t := by
  rw [after, bind_apply, h]

theorem after_bind_pure (x : Action ε σ α) (f : α → β) (s : σ) :
    (x >>= fun a => pure (f a)).after s = x.after s := by
  cases h : x s with
  | ok a t => rw [after_bind_ok h, after_ok h]; rfl
  | error e t => rw [after_bind_error h, after_error h]

theorem after_map (f : α → β) (x : Action ε σ α) (s : σ) : (f <$> x).after s = x.after s := by
  unfold after
  rw [map_apply]
  cases x s <;> rfl

theorem after_discard (x : Action ε σ α) (s : σ) : (discard x).after s = x.after s :=
  after_map (fun _ => ()) x s

theorem discard_apply (x : Action ε σ α) (s : σ) :
    (discard x) s = match x s with
      | .ok _ t => .ok () t
      | .error e t => .error e t := by
  have hd : (discard x) s = ((fun _ => ()) <$> x) s := rfl
  rw [hd, map_apply]

theorem ok_of_discard {x : Action ε σ α} {s t : σ} (h : (discard x) s = .ok () t) :
    ∃ a, x s = .ok a t := by
  rw [discard_apply] at h
  cases hx : x s with
  | ok a u =>
    rw [hx] at h
    cases h
    exact ⟨a, rfl⟩
  | error e u =>
    rw [hx] at h
    cases h

@[simp] theorem after_query (f : σ → Except ε α) (s : σ) :
    (query f : Action ε σ α).after s = s := by
  unfold after query
  cases f s <;> rfl

theorem after_outcome (x : Action ε σ α) (s : σ) :
    (outcome x : Action δ σ (Except ε α)).after s = x.after s := by
  unfold after outcome
  cases x s <;> rfl

theorem exists_outcome (x : Action ε σ α) (s : σ) :
    ∃ r, (outcome x : Action δ σ (Except ε α)) s = .ok r (x.after s) := by
  unfold after outcome
  cases x s with
  | ok a t => exact ⟨.ok a, rfl⟩
  | error e t => exact ⟨.error e, rfl⟩

theorem after_closing (close : Action ε σ Unit) (body : Action ε σ α) (s : σ) :
    (closing close body).after s = close.after (body.after s) := by
  unfold after closing
  cases body s with
  | ok a t => cases h : close t <;> simp only [h]
  | error e t => cases h : close t <;> simp only [h]

theorem closing_ok_inv {close : Action ε σ Unit} {body : Action ε σ α} {s u : σ} {a : α}
    (h : closing close body s = .ok a u) : ∃ t, body s = .ok a t ∧ close t = .ok () u := by
  unfold closing at h
  cases hb : body s with
  | ok b t =>
    rw [hb] at h
    cases hc : close t with
    | ok x v =>
      simp only [hc] at h
      cases h
      exact ⟨t, rfl, hc⟩
    | error e v =>
      simp only [hc] at h
      cases h
  | error e t =>
    rw [hb] at h
    cases hc : close t with
    | ok x v =>
      simp only [hc] at h
      cases h
    | error e' v =>
      simp only [hc] at h
      cases h

theorem closing_ok {close : Action ε σ Unit} {body : Action ε σ α} {s t u : σ} {a : α}
    (hb : body s = .ok a t) (hc : close t = .ok () u) : closing close body s = .ok a u := by
  unfold closing
  rw [hb]
  dsimp only
  rw [hc]

theorem closing_error {close : Action ε σ Unit} {body : Action ε σ α} {s t : σ} {e : ε}
    (h : body s = .error e t) : closing close body s = .error e (close.after t) := by
  unfold closing after
  rw [h]
  cases hc : close t <;> simp only [hc]

theorem after_zoom (part : σ → τ) (put : τ → σ → σ) (wrap : ε → δ) (x : Action ε τ α) (s : σ) :
    (zoom part put wrap x).after s = put (x.after (part s)) s := by
  unfold after zoom
  cases x (part s) <;> rfl

/-- Two runs that end alike, with one value or one error, in states that `R` relates. -/
def Agree (R : σ → τ → Prop) : EStateM.Result ε σ α → EStateM.Result ε τ α → Prop
  | .ok a s, .ok b t => a = b ∧ R s t
  | .error e s, .error f t => e = f ∧ R s t
  | .ok _ _, .error _ _ => False
  | .error _ _, .ok _ _ => False

theorem Agree.after {R : σ → τ → Prop} {x : Action ε σ α} {y : Action ε τ α} {s : σ} {t : τ}
    (h : Agree R (x s) (y t)) : R (x.after s) (y.after t) := by
  unfold Action.after
  cases hx : x s <;> cases hy : y t
  all_goals rw [hx, hy] at h
  · exact h.2
  · exact h.elim
  · exact h.elim
  · exact h.2

end Steps

section Kept

/-- `x` keeps `P` however it ends. -/
def Keeps (P : σ → Prop) (x : Action ε σ α) : Prop := ∀ s, P s → P (x.after s)

variable {P : σ → Prop}

theorem Keeps.of_ok {x : Action ε σ α} (h : Keeps P x) {s t : σ} {a : α} (hs : P s)
    (hx : x s = .ok a t) : P t := after_ok hx ▸ h s hs

theorem Keeps.of_error {x : Action ε σ α} (h : Keeps P x) {s t : σ} {e : ε} (hs : P s)
    (hx : x s = .error e t) : P t := after_error hx ▸ h s hs

theorem keeps_pure (a : α) : Keeps P (pure a : Action ε σ α) := fun _ hs => hs

theorem keeps_throw (e : ε) : Keeps P (throw e : Action ε σ α) := fun _ hs => hs

theorem keeps_query (f : σ → Except ε α) : Keeps P (query f : Action ε σ α) := by
  intro s hs
  rwa [after_query]

theorem keeps_ofExcept (x : Except ε α) : Keeps P (ofExcept x : Action ε σ α) := keeps_query _

theorem keeps_get : Keeps P (get : Action ε σ σ) := fun _ hs => hs

theorem keeps_modify {f : σ → σ} (h : ∀ s, P s → P (f s)) :
    Keeps P (modify f : Action ε σ PUnit) := h

theorem keeps_modifyGet {f : σ → α × σ} (h : ∀ s, P s → P (f s).2) :
    Keeps P (modifyGet f : Action ε σ α) := h

theorem keeps_bind {x : Action ε σ α} {f : α → Action ε σ β} (hx : Keeps P x)
    (hf : ∀ a, Keeps P (f a)) : Keeps P (x >>= f) := by
  intro s hs
  cases h : x s with
  | ok a t => rw [after_bind_ok h]; exact hf a t (hx.of_ok hs h)
  | error e t => rw [after_bind_error h]; exact hx.of_error hs h

/-- The state that was read is the one the rest starts from. -/
theorem keeps_get_bind {f : σ → Action ε σ β} (hf : ∀ s, P s → P ((f s).after s)) :
    Keeps P ((get : Action ε σ σ) >>= f) := by
  intro s hs
  rw [after_bind_ok (get_apply s)]
  exact hf s hs

theorem keeps_map {x : Action ε σ α} (f : α → β) (hx : Keeps P x) : Keeps P (f <$> x) := by
  intro s hs
  rw [after_map]
  exact hx s hs

theorem keeps_outcome {x : Action ε σ α} (hx : Keeps P x) :
    Keeps P (outcome x : Action δ σ (Except ε α)) := by
  intro s hs
  rw [after_outcome]
  exact hx s hs

theorem keeps_closing {close : Action ε σ Unit} {body : Action ε σ α} (hc : Keeps P close)
    (hb : Keeps P body) : Keeps P (closing close body) := by
  intro s hs
  rw [after_closing]
  exact hc _ (hb s hs)

theorem keeps_zoom {part : σ → τ} {put : τ → σ → σ} (wrap : ε → δ) {x : Action ε τ α}
    (h : ∀ s, P s → P (put (x.after (part s)) s)) : Keeps P (zoom part put wrap x) := by
  intro s hs
  rw [after_zoom]
  exact h s hs

theorem keeps_ite {c : Prop} [Decidable c] {x y : Action ε σ α} (hx : Keeps P x)
    (hy : Keeps P y) : Keeps P (if c then x else y) := by
  split
  · exact hx
  · exact hy

theorem keeps_forM {γ : Type} {f : γ → Action ε σ PUnit} {l : List γ}
    (h : ∀ c ∈ l, Keeps P (f c)) : Keeps P (l.forM f) := by
  induction l with
  | nil => exact keeps_pure _
  | cons c l ih =>
    refine keeps_bind (h c List.mem_cons_self) fun _ => ih ?_
    intro d hd
    exact h d (List.mem_cons_of_mem c hd)

end Kept

section Brackets

/-- What `H` says before `enter` holds again after `leave`, provided that `H` kept holding in between
of what `enter` has left. A failure to enter leaves it as it was. -/
def Brackets {ι : Type} (H : ι → σ → Prop) (enter : Action ε σ β) (leave : β → Action ε σ Unit) :
    Prop :=
  ∀ i s, H i s → match enter s with
    | .ok b t => ∃ j, H j t ∧ ∀ u, H j u → H i ((leave b).after u)
    | .error _ t => H i t

theorem Brackets.keeps {ι : Type} {H : ι → σ → Prop} {enter : Action ε σ β}
    {leave : β → Action ε σ Unit} (h : Brackets H enter leave) {body : β → Action ε σ α}
    (hb : ∀ b j, Keeps (H j) (body b)) (i : ι) :
    Keeps (H i) (enter >>= fun b => closing (leave b) (body b)) := by
  intro s hs
  have hi := h i s hs
  cases hx : enter s with
  | ok b t =>
    rw [hx] at hi
    obtain ⟨j, hj, hback⟩ := hi
    rw [after_bind_ok hx, after_closing]
    exact hback _ (hb b j t hj)
  | error e t =>
    rw [hx] at hi
    rw [after_bind_error hx]
    exact hi

end Brackets

end CardShell.Action
