import CardShell.Heap
import CardShell.Proofs.Action

/-!
Heaps that stand like one another: as much in use, in as many blocks, and between the two as many
blocks freed as taken. What is reserved and released again leaves a heap that stands as before.
-/

set_option autoImplicit false

namespace CardShell.Heap

open CardShell.Action

variable {b h : Heap}

/-- `h` stands as `b` does: what was taken since then has been freed. -/
structure Even (b h : Heap) : Prop where
  inUse : h.inUse = b.inUse
  live : h.live = b.live
  turnover : ∃ k, h.total = b.total + k ∧ h.frees = b.frees + k

theorem Even.refl (h : Heap) : Even h h := ⟨rfl, rfl, 0, rfl, rfl⟩

/-- With `blocks` more blocks taken, of `bytes` together. -/
def hold (bytes blocks : Nat) (b : Heap) : Heap :=
  { b with inUse := b.inUse + bytes, live := b.live + blocks, total := b.total + blocks }

theorem hold_hold (x y k l : Nat) (b : Heap) : hold y l (hold x k b) = hold (x + y) (k + l) b := by
  simp only [hold, Nat.add_assoc]

theorem Even.countdown (hb : Even b h) : Even b h.countdown.2 := by
  unfold Heap.countdown
  split
  · exact hb
  · exact ⟨hb.inUse, hb.live, hb.turnover⟩
  · exact ⟨hb.inUse, hb.live, hb.turnover⟩

theorem Even.take (hb : Even b h) (bytes : Nat) : Even (b.hold bytes 1) (h.take bytes) := by
  obtain ⟨k, htotal, hfrees⟩ := hb.turnover
  refine ⟨congrArg (· + bytes) hb.inUse, congrArg (· + 1) hb.live, k, ?_, hfrees⟩
  show h.total + 1 = b.total + 1 + k
  omega

/-- A block that is refused is refused for want of memory. -/
theorem reserve_cases (bytes : Nat) (h : Heap) :
    (∃ h', reserve bytes h = .error .outOfMemory h') ∨ ∃ h', reserve bytes h = .ok () h' := by
  unfold Heap.reserve
  simp only [bind_apply, get_apply, set_apply]
  split
  · exact Or.inl ⟨_, rfl⟩
  · split
    · exact Or.inl ⟨_, rfl⟩
    · exact Or.inr ⟨_, rfl⟩

/-- Reserving takes a block, or fails and takes nothing. -/
theorem Even.reserve (hb : Even b h) (bytes : Nat) :
    (∃ e h', reserve bytes h = .error e h' ∧ Even b h') ∨
      ∃ h', reserve bytes h = .ok () h' ∧ Even (b.hold bytes 1) h' := by
  have hcount := hb.countdown
  unfold Heap.reserve
  simp only [bind_apply, get_apply, set_apply]
  split
  · exact Or.inl ⟨_, _, rfl, hcount⟩
  · split
    · exact Or.inl ⟨_, _, rfl, hcount⟩
    · exact Or.inr ⟨_, rfl, hcount.take bytes⟩

theorem Even.release {bytes x k : Nat} (hb : Even (b.hold (bytes + x) (1 + k)) h) :
    Even (b.hold x k) (h.release bytes) := by
  obtain ⟨n, htotal, hfrees⟩ := hb.turnover
  have hinUse : h.inUse = b.inUse + (bytes + x) := hb.inUse
  have hlive : h.live = b.live + (1 + k) := hb.live
  have htotal' : h.total = b.total + (1 + k) + n := htotal
  have hfrees' : h.frees = b.frees + n := hfrees
  refine ⟨?_, ?_, n + 1, ?_, ?_⟩
  · show h.inUse - bytes = b.inUse + x
    omega
  · show h.live - 1 = b.live + k
    omega
  · show h.total = b.total + k + (n + 1)
    omega
  · show h.frees + 1 = b.frees + (n + 1)
    omega

/-- What texts take. -/
def textBlocks : List Text → Nat
  | [] => 0
  | t :: ts => textBlock t + textBlocks ts

theorem textBlocks_cons (t : Text) (ts : List Text) :
    textBlocks (t :: ts) = textBlock t + textBlocks ts := rfl

theorem textBlocks_perm {ss ts : List Text} (h : ss.Perm ts) : textBlocks ss = textBlocks ts := by
  induction h with
  | nil => rfl
  | cons t _ ih => rw [textBlocks_cons, textBlocks_cons, ih]
  | swap s t ts => exact Nat.add_left_comm _ _ _
  | trans _ _ ih₁ ih₂ => exact ih₁.trans ih₂

theorem textBlocks_append (ss ts : List Text) :
    textBlocks (ss ++ ts) = textBlocks ss + textBlocks ts := by
  induction ss with
  | nil => exact (Nat.zero_add _).symm
  | cons s ss ih => rw [List.cons_append, textBlocks_cons, textBlocks_cons, ih, Nat.add_assoc]

/-- There is room for the texts, and no refusal waits. -/
def RoomFor (ts : List Text) (h : Heap) : Prop :=
  h.failIn = none ∧ h.inUse + textBlocks ts ≤ h.capacity

/-- `h` is as good as `b` with `held` more bytes in use, and refuses nothing that has room. -/
structure Bears (b : Heap) (held : Nat) (h : Heap) : Prop where
  willing : h.failIn = none
  capacity : h.capacity = b.capacity
  inUse : h.inUse = b.inUse + held

variable {held bytes : Nat}

theorem bears_self (h : Heap) (hw : h.failIn = none) : Bears h 0 h := ⟨hw, rfl, rfl⟩

theorem Bears.reserve (hb : Bears b held h) (hroom : b.inUse + (held + bytes) ≤ b.capacity) :
    ∃ h', reserve bytes h = .ok () h' ∧ Bears b (held + bytes) h' := by
  have hcount : h.countdown = (false, h) := by
    unfold Heap.countdown
    rw [hb.willing]
  have hfits : ¬ h.largestFree < bytes := by
    unfold largestFree
    rw [hb.capacity, hb.inUse]
    omega
  refine ⟨h.take bytes, ?_, hb.willing, hb.capacity, ?_⟩
  · unfold Heap.reserve
    simp only [bind_apply, get_apply, hcount, set_apply, Bool.false_eq_true, if_false, if_neg hfits]
  · show h.inUse + bytes = b.inUse + (held + bytes)
    rw [hb.inUse, Nat.add_assoc]

theorem Bears.roomFor {ts : List Text} (hb : Bears b held h)
    (hroom : b.inUse + (held + textBlocks ts) ≤ b.capacity) : RoomFor ts h := by
  refine ⟨hb.willing, ?_⟩
  rw [hb.capacity, hb.inUse]
  omega

theorem RoomFor.reserve {t : Text} {ts : List Text} (hr : RoomFor (t :: ts) h) :
    ∃ h', reserve (textBlock t) h = .ok () h' ∧ RoomFor ts h' := by
  obtain ⟨hwilling, hroom⟩ := hr
  rw [textBlocks_cons] at hroom
  have hfirst : h.inUse + (0 + textBlock t) ≤ h.capacity := by omega
  obtain ⟨h', hx, hb⟩ := (bears_self h hwilling).reserve hfirst
  exact ⟨h', hx, hb.roomFor (by omega)⟩

theorem Bears.release (hb : Bears b (held + bytes) h) : Bears b held (h.release bytes) := by
  refine ⟨hb.willing, hb.capacity, ?_⟩
  show h.inUse - bytes = b.inUse + held
  rw [hb.inUse, ← Nat.add_assoc, Nat.add_sub_cancel]

end CardShell.Heap
