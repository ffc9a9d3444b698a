import Mathlib
import CardShell.Proofs.Heap

/-!
The heap's accounts against its history. Blocks are reserved and dropped in any order, and a refusal
may be ordered at any time; whatever the order, the counters agree with the blocks that are held,
and the refusal comes at the attempt that it was ordered for.
-/

set_option autoImplicit false

namespace CardShell

namespace Heap

/-- What an attempt leaves of a countdown. -/
def ticked : Option Nat → Option Nat
  | some (n + 1) => some n
  | _ => none

theorem ticked_eq_some_iff {failIn : Option Nat} {k : Nat} :
    ticked failIn = some k ↔ failIn = some (k + 1) := by
  match failIn with
  | none => simp [ticked]
  | some 0 => simp [ticked]
  | some (n + 1) => simp [ticked]

theorem countdown_eq (h : Heap) :
    h.countdown = (decide (h.failIn = some 0), { h with failIn := ticked h.failIn }) := by
  obtain ⟨capacity, inUse, live, total, frees, peak, failIn⟩ := h
  match failIn with
  | none => rfl
  | some 0 => rfl
  | some (n + 1) => rfl

theorem reserve_eq (bytes : Nat) (h : Heap) : reserve bytes h =
    if h.failIn = some 0 ∨ h.largestFree < bytes
    then .error .outOfMemory { h with failIn := ticked h.failIn }
    else .ok () ({ h with failIn := ticked h.failIn }.take bytes) := by
  have hfree : largestFree { h with failIn := ticked h.failIn } = h.largestFree := rfl
  unfold reserve
  simp only [Action.bind_apply, Action.get_apply, Action.set_apply, countdown_eq, decide_eq_true_eq]
  split
  · next hdue => rw [if_pos (Or.inl hdue)]; rfl
  · next hdue =>
    rw [hfree]
    split
    · next hlack => rw [if_pos (Or.inr hlack)]; rfl
    · next hroom => rw [if_neg (not_or.mpr ⟨hdue, hroom⟩)]; rfl

end Heap

inductive HeapStep where
  | reserve (bytes : Nat)
  | text (t : Text)
  /-- Drops the block at this place, if there is one. -/
  | drop (i : Nat)
  | failAfter (n : Nat)
  | clearFailure

/-- A heap and the sizes of the blocks held of it. -/
structure Ledger where
  heap : Heap
  blocks : List Nat := []

namespace Ledger

variable {l : Ledger} {steps : List HeapStep} {k : Nat}

def attempt (bytes : Nat) (l : Ledger) : Ledger :=
  match Heap.reserve bytes l.heap with
  | .ok _ h => ⟨h, l.blocks ++ [bytes]⟩
  | .error _ h => ⟨h, l.blocks⟩

def drop (i : Nat) (l : Ledger) : Ledger :=
  match l.blocks[i]? with
  | some bytes => ⟨l.heap.release bytes, l.blocks.eraseIdx i⟩
  | none => l

def step (l : Ledger) : HeapStep → Ledger
  | .reserve bytes => l.attempt bytes
  | .text t => l.attempt (Heap.textBlock t)
  | .drop i => l.drop i
  | .failAfter n => { l with heap := l.heap.failAfter n }
  | .clearFailure => { l with heap := l.heap.clearFailure }

/-- After the steps, on a new heap. -/
def after (capacity : Nat) (steps : List HeapStep) : Ledger :=
  steps.foldl step { heap := { capacity } }

theorem after_concat (capacity : Nat) (steps : List HeapStep) (s : HeapStep) :
    after capacity (steps ++ [s]) = (after capacity steps).step s :=
  List.foldl_concat ..

/-- The counters are those of the blocks held. -/
structure Balanced (capacity : Nat) (l : Ledger) : Prop where
  size : l.heap.capacity = capacity
  fits : l.heap.inUse ≤ capacity
  inUse : l.heap.inUse = l.blocks.sum
  live : l.heap.live = l.blocks.length
  turnover : l.heap.total = l.heap.live + l.heap.frees
  below : l.heap.inUse ≤ l.heap.peak

variable {capacity : Nat}

/-- An attempt that fails changes the countdown only; one that succeeds had room. -/
theorem attempt_cases (bytes : Nat) (l : Ledger) :
    l.attempt bytes = { l with heap := { l.heap with failIn := Heap.ticked l.heap.failIn } } ∨
    bytes ≤ l.heap.largestFree ∧ l.attempt bytes =
      ⟨{ l.heap with failIn := Heap.ticked l.heap.failIn }.take bytes, l.blocks ++ [bytes]⟩ := by
  have heq := Heap.reserve_eq bytes l.heap
  split at heq
  · left
    rw [attempt, heq]
  · next hfits =>
    right
    rw [attempt, heq]
    exact ⟨Nat.not_lt.mp (not_or.mp hfits).2, rfl⟩

theorem drop_cases (i : Nat) (l : Ledger) :
    l.drop i = l ∨ ∃ bytes, l.blocks[i]? = some bytes ∧
      l.drop i = ⟨l.heap.release bytes, l.blocks.eraseIdx i⟩ := by
  unfold drop
  split
  · next bytes hi => exact Or.inr ⟨bytes, hi, rfl⟩
  · exact Or.inl rfl

theorem Balanced.attempt (h : Balanced capacity l) (bytes : Nat) :
    Balanced capacity (l.attempt bytes) := by
  obtain heq | ⟨hroom, heq⟩ := attempt_cases bytes l
  · rw [heq]
    exact ⟨h.size, h.fits, h.inUse, h.live, h.turnover, h.below⟩
  · rw [heq]
    refine ⟨h.size, ?_, ?_, ?_, ?_, Nat.le_max_right ..⟩
    · have hfits := h.fits
      unfold Heap.largestFree at hroom
      rw [h.size] at hroom
      show l.heap.inUse + bytes ≤ capacity
      omega
    · show l.heap.inUse + bytes = (l.blocks ++ [bytes]).sum
      rw [h.inUse, List.sum_append, List.sum_singleton]
    · show l.heap.live + 1 = (l.blocks ++ [bytes]).length
      rw [h.live, List.length_append, List.length_singleton]
    · show l.heap.total + 1 = l.heap.live + 1 + l.heap.frees
      rw [h.turnover, Nat.add_right_comm]

/-- A block held is part of what is in use, and is counted. -/
theorem Balanced.held (h : Balanced capacity l) {i bytes : Nat} (hi : l.blocks[i]? = some bytes) :
    l.heap.inUse = bytes + (l.blocks.eraseIdx i).sum ∧
      l.heap.live = (l.blocks.eraseIdx i).length + 1 := by
  obtain ⟨hlt, rfl⟩ := List.getElem?_eq_some_iff.mp hi
  refine ⟨?_, ?_⟩
  · rw [h.inUse, List.CommMonoid.add_sum_eraseIdx hlt]
  · rw [h.live, List.length_eraseIdx_of_lt hlt]
    omega

theorem Balanced.drop (h : Balanced capacity l) (i : Nat) : Balanced capacity (l.drop i) := by
  obtain heq | ⟨bytes, hi, heq⟩ := drop_cases i l
  · rw [heq]
    exact h
  · obtain ⟨hinUse, hlive⟩ := h.held hi
    have hfits := h.fits
    have hturnover := h.turnover
    have hbelow := h.below
    rw [heq]
    refine ⟨h.size, ?_, ?_, ?_, ?_, ?_⟩
    · show l.heap.inUse - bytes ≤ capacity
      omega
    · show l.heap.inUse - bytes = (l.blocks.eraseIdx i).sum
      omega
    · show l.heap.live - 1 = (l.blocks.eraseIdx i).length
      omega
    · show l.heap.total = l.heap.live - 1 + (l.heap.frees + 1)
      omega
    · show l.heap.inUse - bytes ≤ l.heap.peak
      omega

theorem Balanced.step (h : Balanced capacity l) (s : HeapStep) : Balanced capacity (l.step s) := by
  cases s with
  | reserve bytes => exact h.attempt bytes
  | text t => exact h.attempt (Heap.textBlock t)
  | drop i => exact h.drop i
  | failAfter n => exact ⟨h.size, h.fits, h.inUse, h.live, h.turnover, h.below⟩
  | clearFailure => exact ⟨h.size, h.fits, h.inUse, h.live, h.turnover, h.below⟩

theorem balanced_after (capacity : Nat) (steps : List HeapStep) :
    Balanced capacity (after capacity steps) := by
  induction steps using List.reverseRecOn with
  | nil => exact ⟨rfl, Nat.zero_le _, rfl, rfl, rfl, Nat.le_refl 0⟩
  | append_singleton steps s ih =>
    rw [after_concat]
    exact ih.step s

section Peak

theorem peak_attempt (h : Balanced capacity l) (bytes : Nat) :
    (l.attempt bytes).heap.peak = max l.heap.peak (l.attempt bytes).heap.inUse := by
  obtain heq | ⟨-, heq⟩ := attempt_cases bytes l
  · rw [heq]
    exact (Nat.max_eq_left h.below).symm
  · rw [heq]
    rfl

theorem peak_drop (h : Balanced capacity l) (i : Nat) :
    (l.drop i).heap.peak = max l.heap.peak (l.drop i).heap.inUse := by
  obtain heq | ⟨bytes, -, heq⟩ := drop_cases i l
  · rw [heq]
    exact (Nat.max_eq_left h.below).symm
  · rw [heq]
    exact (Nat.max_eq_left (Nat.le_trans (Nat.sub_le _ _) h.below)).symm

theorem peak_step (h : Balanced capacity l) (s : HeapStep) :
    (l.step s).heap.peak = max l.heap.peak (l.step s).heap.inUse := by
  cases s with
  | reserve bytes => exact peak_attempt h bytes
  | text t => exact peak_attempt h (Heap.textBlock t)
  | drop i => exact peak_drop h i
  | failAfter n => exact (Nat.max_eq_left h.below).symm
  | clearFailure => exact (Nat.max_eq_left h.below).symm

/-- The most that was in use at any time. -/
theorem peak_after (capacity : Nat) (steps : List HeapStep) :
    (∀ past, past <+: steps → (after capacity past).heap.inUse ≤ (after capacity steps).heap.peak) ∧
      ∃ past, past <+: steps ∧
        (after capacity past).heap.inUse = (after capacity steps).heap.peak := by
  induction steps using List.reverseRecOn with
  | nil =>
    refine ⟨fun past hpast => ?_, [], List.prefix_rfl, rfl⟩
    rw [List.prefix_nil.mp hpast]
    exact Nat.le_refl 0
  | append_singleton steps s ih =>
    obtain ⟨hmost, past, hpast, hreached⟩ := ih
    have hpeak := peak_step (balanced_after capacity steps) s
    rw [← after_concat] at hpeak
    refine ⟨fun past' hpast' => ?_, ?_⟩
    · rw [hpeak]
      obtain rfl | hold := List.prefix_concat_iff.mp hpast'
      · exact Nat.le_max_right ..
      · exact Nat.le_trans (hmost past' hold) (Nat.le_max_left ..)
    · rw [hpeak]
      obtain hle | hge := Nat.le_total (after capacity (steps ++ [s])).heap.inUse
        (after capacity steps).heap.peak
      · exact ⟨past, hpast.trans (List.prefix_append ..), by rw [hreached, Nat.max_eq_left hle]⟩
      · exact ⟨steps ++ [s], List.prefix_rfl, (Nat.max_eq_right hge).symm⟩

end Peak

end Ledger

namespace HeapStep

/-- Steps that try to take a block. -/
def asks : HeapStep → Bool
  | reserve _ | text _ => true
  | _ => false

/-- Steps that order a refusal, or call it off. -/
def switches : HeapStep → Bool
  | failAfter _ | clearFailure => true
  | _ => false

end HeapStep

namespace Ledger

variable {l : Ledger} {steps : List HeapStep} {k : Nat}

/-- A refusal was ordered and not called off, and `k` more attempts are not to suffer it. -/
def Armed (k : Nat) (steps : List HeapStep) : Prop :=
  ∃ past n since, steps = past ++ HeapStep.failAfter n :: since ∧
    (∀ s ∈ since, s.switches = false) ∧ since.countP HeapStep.asks + k = n

/-- The next attempt is the one that is to be refused. -/
abbrev Due (steps : List HeapStep) : Prop := Armed 0 steps

theorem countP_asks_concat (since : List HeapStep) (s : HeapStep) (k : Nat) :
    (since ++ [s]).countP HeapStep.asks + k = since.countP HeapStep.asks + (k + s.asks.toNat) := by
  rw [List.countP_append, List.countP_singleton, Nat.add_assoc, Nat.add_comm _ k, Bool.toNat,
    Bool.cond_eq_ite]

theorem armed_concat_iff (k : Nat) (steps : List HeapStep) (s : HeapStep) :
    Armed k (steps ++ [s]) ↔
      s = .failAfter k ∨ s.switches = false ∧ Armed (k + s.asks.toNat) steps := by
  constructor
  · rintro ⟨past, n, since, heq, hquiet, hcount⟩
    obtain rfl | ⟨since, s', rfl⟩ := List.eq_nil_or_concat since
    · obtain ⟨-, rfl⟩ := List.append_singleton_inj.mp heq
      rw [List.countP_nil, Nat.zero_add] at hcount
      exact Or.inl (hcount ▸ rfl)
    · rw [List.concat_eq_append] at heq hquiet hcount
      rw [← List.cons_append, ← List.append_assoc] at heq
      obtain ⟨rfl, rfl⟩ := List.append_singleton_inj.mp heq
      obtain ⟨hsince, hs⟩ := List.forall_mem_append.mp hquiet
      rw [countP_asks_concat] at hcount
      exact Or.inr ⟨hs s (List.mem_singleton_self s), past, n, since, rfl, hsince, hcount⟩
  · rintro (rfl | ⟨hs, past, n, since, rfl, hsince, hcount⟩)
    · exact ⟨steps, k, [], rfl, List.forall_mem_nil _, Nat.zero_add k⟩
    · refine ⟨past, n, since ++ [s], ?_, ?_, ?_⟩
      · rw [List.append_assoc, List.cons_append]
      · exact List.forall_mem_append.mpr ⟨hsince, List.forall_mem_singleton.mpr hs⟩
      · rw [countP_asks_concat, hcount]

/-- Counted from the order on, one attempt alone is due. -/
theorem armed_since_iff {since : List HeapStep} (past : List HeapStep) (n k : Nat)
    (hquiet : ∀ s ∈ since, s.switches = false) :
    Armed k (past ++ .failAfter n :: since) ↔ since.countP HeapStep.asks + k = n := by
  induction since using List.reverseRecOn generalizing k with
  | nil =>
    rw [armed_concat_iff, List.countP_nil, Nat.zero_add]
    constructor
    · rintro (heq | ⟨hs, -⟩)
      · exact (HeapStep.failAfter.inj heq).symm
      · cases hs
    · rintro rfl
      exact Or.inl rfl
  | append_singleton since s ih =>
    obtain ⟨hsince, hs⟩ := List.forall_mem_append.mp hquiet
    have hs := hs s (List.mem_singleton_self s)
    rw [← List.cons_append, ← List.append_assoc, armed_concat_iff, ih _ hsince,
      countP_asks_concat]
    constructor
    · rintro (rfl | ⟨-, hcount⟩)
      · cases hs
      · exact hcount
    · exact fun hcount => Or.inr ⟨hs, hcount⟩

theorem failIn_attempt (bytes : Nat) (l : Ledger) :
    (l.attempt bytes).heap.failIn = Heap.ticked l.heap.failIn := by
  obtain heq | ⟨-, heq⟩ := attempt_cases bytes l
  · rw [heq]
  · rw [heq]
    rfl

theorem failIn_drop (i : Nat) (l : Ledger) : (l.drop i).heap.failIn = l.heap.failIn := by
  obtain heq | ⟨bytes, -, heq⟩ := drop_cases i l
  · rw [heq]
  · rw [heq]
    rfl

theorem failIn_step_iff (l : Ledger) (s : HeapStep) (k : Nat) : (l.step s).heap.failIn = some k ↔
    s = .failAfter k ∨ s.switches = false ∧ l.heap.failIn = some (k + s.asks.toNat) := by
  cases s with
  | reserve bytes =>
    simp [step, failIn_attempt, Heap.ticked_eq_some_iff, HeapStep.switches, HeapStep.asks]
  | text t =>
    simp [step, failIn_attempt, Heap.ticked_eq_some_iff, HeapStep.switches, HeapStep.asks]
  | drop i => simp [step, failIn_drop, HeapStep.switches, HeapStep.asks]
  | failAfter n => simp [step, Heap.failAfter, HeapStep.switches]
  | clearFailure => simp [step, Heap.clearFailure, HeapStep.switches]

theorem failIn_after_iff (capacity k : Nat) (steps : List HeapStep) :
    (after capacity steps).heap.failIn = some k ↔ Armed k steps := by
  induction steps using List.reverseRecOn generalizing k with
  | nil =>
    constructor
    · intro hnone
      cases hnone
    · rintro ⟨past, n, since, hempty, -⟩
      exact absurd hempty.symm (List.append_ne_nil_of_right_ne_nil past (List.cons_ne_nil _ since))
  | append_singleton steps s ih => rw [after_concat, failIn_step_iff, armed_concat_iff, ih]

/-- However blocks are reserved and dropped and refusals ordered, the counters are those of the
blocks held, and an attempt fails when it is the one ordered to, or for want of room. -/
theorem accounts_of_steps (capacity : Nat) (steps : List HeapStep) :
    let l := after capacity steps
    (l.heap.capacity = capacity ∧ l.heap.inUse ≤ capacity ∧ l.heap.inUse = l.blocks.sum) ∧
    (l.heap.live = l.blocks.length ∧ l.heap.total = l.heap.live + l.heap.frees) ∧
    ((∀ past, past <+: steps → (after capacity past).heap.inUse ≤ l.heap.peak) ∧
      ∃ past, past <+: steps ∧ (after capacity past).heap.inUse = l.heap.peak) ∧
    -- What any drop takes away is there.
    (∀ bytes ∈ l.blocks, bytes ≤ l.heap.inUse ∧ 1 ≤ l.heap.live) ∧
    (∀ bytes,
      (¬ Due steps ∧ bytes ≤ l.heap.largestFree → ∃ left,
        Heap.reserve bytes l.heap = .ok () ({ l.heap with failIn := left }.take bytes)) ∧
      (Due steps ∨ l.heap.largestFree < bytes → ∃ left,
        Heap.reserve bytes l.heap = .error .outOfMemory { l.heap with failIn := left })) ∧
    ∀ n since, (∀ s ∈ since, s.switches = false) →
      (Due (steps ++ .failAfter n :: since) ↔ since.countP HeapStep.asks = n) := by
  intro l
  have hl : Balanced capacity l := balanced_after capacity steps
  have hdue : l.heap.failIn = some 0 ↔ Due steps := failIn_after_iff capacity 0 steps
  refine ⟨⟨hl.size, hl.fits, hl.inUse⟩, ⟨hl.live, hl.turnover⟩, peak_after capacity steps,
    fun bytes hbytes => ?_, fun bytes => ?_, fun n since hquiet => ?_⟩
  · obtain ⟨i, hi⟩ := List.mem_iff_getElem?.mp hbytes
    obtain ⟨hinUse, hlive⟩ := hl.held hi
    omega
  · rw [← hdue, Heap.reserve_eq]
    constructor
    · rintro ⟨hnot, hroom⟩
      exact ⟨_, if_neg (not_or.mpr ⟨hnot, Nat.not_lt.mpr hroom⟩)⟩
    · intro hfails
      exact ⟨_, if_pos hfails⟩
  · rw [Due, armed_since_iff steps n 0 hquiet, Nat.add_zero]

/-- A refusal ordered for the third attempt: the second one lacks room but counts, a block is
dropped, and the third is refused a byte that has room. The fourth is not due. -/
theorem accounts_of_third_attempt :
    let since : List HeapStep := [.text "abcde", .reserve 1, .drop 0]
    let l := after 10 ([.reserve 4] ++ .failAfter 2 :: since)
    l.blocks = [6] ∧ l.heap.inUse = 6 ∧ l.heap.largestFree = 4 ∧ l.heap.peak = 10 ∧
      (∃ left, Heap.reserve 1 l.heap = .error .outOfMemory { l.heap with failIn := left }) ∧
      ¬ Due ([.reserve 4] ++ .failAfter 2 :: (since ++ [.reserve 1])) := by
  intro since l
  obtain ⟨⟨-, -, hinUse⟩, -, -, -, hreserve, -⟩ :=
    accounts_of_steps 10 ([.reserve 4] ++ .failAfter 2 :: since)
  obtain ⟨-, -, -, -, -, hdue⟩ := accounts_of_steps 10 [.reserve 4]
  have hblocks : l.blocks = [6] := by decide
  have hthird := (hdue 2 since (by decide)).mpr (by decide)
  have hfourth := mt (hdue 2 (since ++ [.reserve 1]) (by decide)).mp (by decide)
  exact ⟨hblocks, hinUse.trans (congrArg List.sum hblocks), by decide, by decide,
    (hreserve 1).2 (Or.inl hthird), hfourth⟩

end Ledger

end CardShell
