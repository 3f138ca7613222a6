import BlogSample.Theory.Threads
import Mathlib.Logic.Function.Iterate
import Mathlib.Algebra.Group.Nat.Defs

/-!
# Lost Updates

Threads that each apply one function `f` to a shared cell, a number of times,
by reading the cell and writing it back. Whatever is written between the read
and the write of a thread is lost. What is left is still `f` applied some
number of times, and `plain_outcomes_iff` says exactly which numbers can come
out: anything from two to the number of all updates. Two is the least because
the last write is not its thread's first, so what that thread read last was an
update already.

The argument needs no more of `f` than that it is a function. The cell can be
read as the count of updates behind its value (`plain_map`), so the whole
analysis is about a counter that starts at zero.

## Main definitions

* `Updater`, `plain`: Updates by a read and a write.
* `plainStart`, `PlainDone`: Where the threads start and end.
* `Counted`: What holds of a counter that is updated this way.

## Theorems

* `Counted.reachable`: The invariant of the counter.
* `overwrite`: How two threads lose the updates of the others.
* `plain_outcomes_iff`: What plain updates may leave.
-/

namespace BlogSample

namespace Updates

open Transition Threads

universe u

variable {α : Type u}

/-! ### Plain updates -/

/-- A thread with the number of updates it has not begun, and with the value it
    has read if it is in the middle of one. -/
structure Updater (α : Type u) where
  left : Nat
  reg : Option α
  deriving DecidableEq

/-- `x = f(x)` without protection: a read, then a write. -/
def plain (f : α → α) : Program α (Updater α) := fun _ x th =>
  match th.reg, th.left with
  | some v, left => some (f v, ⟨left, none⟩)
  | none, left + 1 => some (x, ⟨left, some x⟩)
  | none, 0 => none

/-- `n` threads are about to make `times` updates each. -/
def plainStart (x₀ : α) (n times : Nat) (s : State α (Updater α)) : Prop :=
  s = ⟨x₀, List.replicate n ⟨times, none⟩⟩

/-- The updates that a thread has not completed. -/
def Updater.open (th : Updater α) : Nat :=
  th.left + th.reg.isSome.toNat

/-- Every thread has made its updates. -/
def PlainDone (s : State α (Updater α)) : Prop :=
  ∀ th ∈ s.threads, th = ⟨0, none⟩

theorem plain_read (f : α → α) (i : Nat) (x : α) (left : Nat) :
    plain f i x ⟨left + 1, none⟩ = some (x, ⟨left, some x⟩) :=
  rfl

theorem plain_write (f : α → α) (i : Nat) (x v : α) (left : Nat) :
    plain f i x ⟨left, some v⟩ = some (f v, ⟨left, none⟩) := by
  cases left <;> rfl

/-- A step of a plain update reads or writes. -/
theorem plain_cases {f : α → α} {i : Nat} {x m : α} {th th' : Updater α}
    (h : plain f i x th = some (m, th')) :
    (∃ left, th = ⟨left + 1, none⟩ ∧ m = x ∧ th' = ⟨left, some x⟩) ∨
    ∃ left v, th = ⟨left, some v⟩ ∧ m = f v ∧ th' = ⟨left, none⟩ := by
  rcases th with ⟨left, _ | v⟩
  · cases left with
    | zero => cases h
    | succ left =>
        rw [plain_read, Option.some.injEq, Prod.mk.injEq] at h
        exact .inl ⟨left, rfl, h.1.symm, h.2.symm⟩
  · rw [plain_write, Option.some.injEq, Prod.mk.injEq] at h
    exact .inr ⟨left, v, rfl, h.1.symm, h.2.symm⟩

/-- The cell read as the number of updates behind its value. -/
theorem plain_map (f : α → α) (x₀ : α) (i m : Nat) (th : Updater Nat) :
    plain f i (f^[m] x₀) ⟨th.left, th.reg.map (fun k => f^[k] x₀)⟩ =
      (plain Nat.succ i m th).map
        (fun r => (f^[r.1] x₀, ⟨r.2.left, r.2.reg.map (fun k => f^[k] x₀)⟩)) := by
  rcases th with ⟨left, _ | v⟩
  · cases left <;> rfl
  · simp only [Option.map_some, plain_write, Function.iterate_succ_apply', Option.map_none]

/-- What holds of a counter that `n` threads raise `times` times each. -/
structure Counted (n times : Nat) (s : State Nat (Updater Nat)) : Prop where
  /-- Every thread has its updates. -/
  enough : ∀ th ∈ s.threads, th.open ≤ times
  /-- The counter counts no more than the completed updates. -/
  below : s.shared + tally Updater.open s.threads ≤ n * times
  /-- No more had been completed when a thread read it. -/
  regs : ∀ th ∈ s.threads, ∀ v, th.reg = some v → v + tally Updater.open s.threads ≤ n * times
  /-- A thread that has completed an update has read one. -/
  seen : ∀ th ∈ s.threads, th.open < times → ∀ v, th.reg = some v → 1 ≤ v
  /-- The last thread to write has completed an update, and two are counted if
      it was not its first. -/
  last : (∀ th ∈ s.threads, th.open = times) ∨
    1 ≤ s.shared ∧ ∃ th ∈ s.threads, th.open < times ∧ (th.open + 1 < times → 2 ≤ s.shared)

theorem tally_replicate {β : Type u} (w : β → Nat) (n : Nat) (b : β) :
    tally w (List.replicate n b) = n * w b := by
  induction n with
  | zero => rw [List.replicate_zero, tally_nil, Nat.zero_mul]
  | succ n ih => rw [List.replicate_succ, tally_cons, ih, Nat.succ_mul, Nat.add_comm]

/-- A thread that reads or writes is in the new list in place of the old one. -/
theorem mem_set_self {l : List α} {i : Nat} {a : α} (h : l[i]? = some a) (b : α) :
    b ∈ l.set i b :=
  List.mem_iff_getElem?.mpr ⟨i, by
    rw [List.getElem?_set, if_pos rfl, if_pos (List.getElem?_eq_some_iff.mp h).1]⟩

namespace Counted

variable {n times : Nat} {s : State Nat (Updater Nat)}

theorem start (n times : Nat) : Counted n times ⟨0, List.replicate n ⟨times, none⟩⟩ := by
  have hopen : ∀ th ∈ List.replicate n (⟨times, none⟩ : Updater Nat), th.open = times := by
    intro th hth
    rw [List.eq_of_mem_replicate hth]
    rfl
  have htally := tally_replicate Updater.open n (⟨times, none⟩ : Updater Nat)
  refine ⟨fun th hth => Nat.le_of_eq (hopen th hth), Nat.le_of_eq ?_, ?_, ?_, .inl hopen⟩
  · rw [htally, Nat.zero_add]
    rfl
  · intro th hth v hv
    rw [List.eq_of_mem_replicate hth] at hv
    cases hv
  · intro th hth hlt
    exact absurd (hopen th hth) (Nat.ne_of_lt hlt)

/-- Some update has been completed if a thread has completed one. -/
theorem one_le (h : Counted n times s) {th : Updater Nat} (hth : th ∈ s.threads)
    (hlt : th.open < times) : 1 ≤ s.shared :=
  h.last.elim (fun hall => absurd (hall th hth) (Nat.ne_of_lt hlt)) And.left

theorem read (h : Counted n times s) {i left : Nat} (hth : s.threads[i]? = some ⟨left + 1, none⟩) :
    Counted n times ⟨s.shared, s.threads.set i ⟨left, some s.shared⟩⟩ := by
  have hmem := List.mem_of_getElem? hth
  have htally := tally_set Updater.open (⟨left, some s.shared⟩ : Updater Nat) hth
  -- The read opens the update that it has announced.
  have hsame : (⟨left, some s.shared⟩ : Updater Nat).open = (⟨left + 1, none⟩ : Updater Nat).open :=
    rfl
  rw [hsame, Nat.add_right_cancel_iff] at htally
  refine ⟨fun th hm => ?_, htally ▸ h.below, fun th hm v hv => ?_, fun th hm hlt v hv => ?_, ?_⟩
  · rcases List.mem_or_eq_of_mem_set hm with hm | rfl
    · exact h.enough th hm
    · rw [hsame]
      exact h.enough _ hmem
  · rw [htally]
    rcases List.mem_or_eq_of_mem_set hm with hm | rfl
    · exact h.regs th hm v hv
    · rw [← Option.some.inj hv]
      exact h.below
  · rcases List.mem_or_eq_of_mem_set hm with hm | rfl
    · exact h.seen th hm hlt v hv
    · rw [← Option.some.inj hv]
      exact h.one_le hmem hlt
  · rcases h.last with hall | ⟨hone, th, hm, hlt, htwo⟩
    · refine .inl (fun th hm => ?_)
      rcases List.mem_or_eq_of_mem_set hm with hm | rfl
      · exact hall th hm
      · rw [hsame]
        exact hall _ hmem
    -- The last thread to write may be the one that reads.
    · refine .inr ⟨hone, ?_⟩
      rcases List.mem_iff_getElem?.mp hm with ⟨j, hj⟩
      by_cases hji : j = i
      · subst hji
        rw [hth, Option.some.injEq] at hj
        subst hj
        exact ⟨_, mem_set_self hth _, hlt, htwo⟩
      · exact ⟨th, List.mem_iff_getElem?.mpr ⟨j, by rw [List.getElem?_set_ne (Ne.symm hji), hj]⟩,
          hlt, htwo⟩

theorem write (h : Counted n times s) {i left v : Nat} (hth : s.threads[i]? = some ⟨left, some v⟩) :
    Counted n times ⟨v + 1, s.threads.set i ⟨left, none⟩⟩ := by
  have hmem := List.mem_of_getElem? hth
  have htally := tally_set Updater.open (⟨left, none⟩ : Updater Nat) hth
  have hopen : (⟨left, some v⟩ : Updater Nat).open = left + 1 := rfl
  have hopen' : (⟨left, none⟩ : Updater Nat).open = left := rfl
  have henough := h.enough _ hmem
  have hregs := h.regs _ hmem v rfl
  rw [hopen, hopen'] at htally
  rw [hopen] at henough
  have hbelow : v + 1 + tally Updater.open (s.threads.set i ⟨left, none⟩) ≤ n * times := by omega
  have hless : tally Updater.open (s.threads.set i ⟨left, none⟩) ≤
      tally Updater.open s.threads := by
    omega
  refine ⟨fun th hm => ?_, hbelow, fun th hm u hu => ?_, fun th hm hlt u hu => ?_, ?_⟩
  · rcases List.mem_or_eq_of_mem_set hm with hm | rfl
    · exact h.enough th hm
    · rw [hopen']
      omega
  · rcases List.mem_or_eq_of_mem_set hm with hm | rfl
    · exact Nat.le_trans (Nat.add_le_add_left hless u) (h.regs th hm u hu)
    · cases hu
  · rcases List.mem_or_eq_of_mem_set hm with hm | rfl
    · exact h.seen th hm hlt u hu
    · cases hu
  · refine .inr ⟨Nat.le_add_left 1 v, _, mem_set_self hth _, by rw [hopen']; omega, fun hlt => ?_⟩
    -- It is not the first update of this thread, so what it read counts one.
    exact Nat.succ_le_succ (h.seen _ hmem (by rw [hopen]; rwa [hopen'] at hlt) v rfl)

theorem step (h : Counted n times s) {i : Nat} {t : State Nat (Updater Nat)}
    (hstep : Threads.step (plain Nat.succ) s i = some t) : Counted n times t := by
  rcases step_eq_some.mp hstep with ⟨th, m, th', hth, hm, rfl⟩
  rcases plain_cases hm with ⟨left, rfl, rfl, rfl⟩ | ⟨left, v, rfl, rfl, rfl⟩
  · exact h.read hth
  · exact h.write hth

theorem reachable (h : (system (plain Nat.succ) (plainStart 0 n times)).Reachable s) :
    Counted n times s :=
  System.Reachable.invariant (Counted n times)
    (fun s (hs : plainStart 0 n times s) => by rw [hs]; exact start n times)
    (fun _ _ _ hs hst => hs.step hst) h

end Counted

/-! ### Every count from two to all of them -/

section Schedules

variable {R : State Nat (Updater Nat) → Prop}
  (hR : ∀ s i t, R s → Threads.step (plain Nat.succ) s i = some t → R t)
include hR

/-- A thread updates the counter undisturbed. -/
theorem update_once {x i left : Nat} {l : List (Updater Nat)} (h : R ⟨x, l⟩)
    (hth : l[i]? = some ⟨left + 1, none⟩) : R ⟨x + 1, l.set i ⟨left, none⟩⟩ := by
  have hlt := (List.getElem?_eq_some_iff.mp hth).1
  have hread := hR _ i _ h (step_of hth (plain_read Nat.succ i x left))
  have hreg : (l.set i ⟨left, some x⟩)[i]? = some ⟨left, some x⟩ := by
    rw [List.getElem?_set, if_pos rfl, if_pos hlt]
  have hwrite := hR _ i _ hread (step_of hreg (plain_write Nat.succ i x x left))
  rwa [List.set_set] at hwrite

/-- A thread makes several of its updates undisturbed. -/
theorem updates {x : Nat} {l : List (Updater Nat)} (h : R ⟨x, l⟩) (i left j : Nat)
    (hth : l[i]? = some ⟨left + j, none⟩) : R ⟨x + j, l.set i ⟨left, none⟩⟩ := by
  induction j generalizing left with
  | zero =>
      rcases List.getElem?_eq_some_iff.mp hth with ⟨hlt, hget⟩
      rw [show (⟨left, none⟩ : Updater Nat) = l[i] from hget.symm, List.set_getElem_self]
      exact h
  | succ j ih =>
      have hlt := (List.getElem?_eq_some_iff.mp hth).1
      have hfirst := ih (left + 1) (by rw [hth, Nat.add_assoc, Nat.add_comm 1 j])
      have hread : (l.set i ⟨left + 1, none⟩)[i]? = some ⟨left + 1, none⟩ := by
        rw [List.getElem?_set, if_pos rfl, if_pos hlt]
      have hlast := update_once hR hfirst hread
      rwa [List.set_set] at hlast

/-- Threads that are not in the middle of an update make some of theirs. -/
theorem several (rest : List (Updater Nat)) : ∀ (before : List (Updater Nat)) (x count : Nat),
    (∀ th ∈ rest, th.reg = none) → count ≤ tally Updater.open rest → R ⟨x, before ++ rest⟩ →
    ∃ rest', (∀ th ∈ rest', th.reg = none) ∧
      tally Updater.open rest' + count = tally Updater.open rest ∧
      R ⟨x + count, before ++ rest'⟩ := by
  induction rest with
  | nil =>
      intro before x count _ hcount h
      have hzero : count = 0 := Nat.le_zero.mp hcount
      exact ⟨[], by simp, by rw [hzero, Nat.add_zero], by rw [hzero]; exact h⟩
  | cons th rest ih =>
      intro before x count hidle hcount h
      rcases th with ⟨left, reg⟩
      obtain rfl : reg = none := hidle _ List.mem_cons_self
      have hopen : (⟨left, none⟩ : Updater Nat).open = left := rfl
      rw [tally_cons, hopen] at hcount
      -- The first thread makes as many as are asked for, and the others the rest.
      rcases Nat.le_total count left with hle | hle
      · have hth : (before ++ ⟨left, none⟩ :: rest)[before.length]? =
            some ⟨left - count + count, none⟩ := by
          rw [List.getElem?_append_right (Nat.le_refl _), Nat.sub_self, Nat.sub_add_cancel hle]
          rfl
        have hnew := updates hR h before.length (left - count) count hth
        rw [List.set_append_right _ _ (Nat.le_refl _), Nat.sub_self, List.set_cons_zero] at hnew
        refine ⟨⟨left - count, none⟩ :: rest, fun th hth => ?_, ?_, hnew⟩
        · rcases List.mem_cons.mp hth with rfl | hth
          · rfl
          · exact hidle th (List.mem_cons_of_mem _ hth)
        · rw [tally_cons, tally_cons, hopen, show (⟨left - count, none⟩ : Updater Nat).open =
            left - count from rfl]
          omega
      · have hth : (before ++ ⟨left, none⟩ :: rest)[before.length]? = some ⟨0 + left, none⟩ := by
          rw [List.getElem?_append_right (Nat.le_refl _), Nat.sub_self, Nat.zero_add]
          rfl
        have hnew := updates hR h before.length 0 left hth
        rw [List.set_append_right _ _ (Nat.le_refl _), Nat.sub_self, List.set_cons_zero,
          List.append_cons] at hnew
        rcases ih (before ++ [⟨0, none⟩]) (x + left) (count - left)
          (fun th hth => hidle th (List.mem_cons_of_mem _ hth)) (by omega) hnew with
          ⟨rest', hidle', htally, hrun⟩
        refine ⟨⟨0, none⟩ :: rest', fun th hth => ?_, ?_, ?_⟩
        · rcases List.mem_cons.mp hth with rfl | hth
          · rfl
          · exact hidle' th hth
        · rw [tally_cons, tally_cons, hopen, show (⟨0, none⟩ : Updater Nat).open = 0 from rfl]
          omega
        · rw [← List.append_cons, show x + left + (count - left) = x + count by omega] at hrun
          exact hrun

/-- Threads that are not in the middle of an update make all of theirs. -/
theorem finish {x : Nat} {l : List (Updater Nat)} (h : R ⟨x, l⟩)
    (hidle : ∀ th ∈ l, th.reg = none) :
    ∃ l', R ⟨x + tally Updater.open l, l'⟩ ∧ ∀ th ∈ l', th = ⟨0, none⟩ := by
  rcases several hR l [] x (tally Updater.open l) hidle (Nat.le_refl _) h with
    ⟨l', hidle', htally, hrun⟩
  refine ⟨l', hrun, fun th hth => ?_⟩
  have hzero : th.open ≤ 0 := by
    have hle := le_tally Updater.open hth
    omega
  rcases th with ⟨left, reg⟩
  obtain rfl : reg = none := hidle' _ hth
  rw [show left = 0 from Nat.le_zero.mp hzero]

/-- Two threads undo what the others do in between: the first overwrites
    `own + others` updates, the second `firsts`. -/
theorem overwrite {times own others firsts : Nat} {rest : List (Updater Nat)}
    (h : R ⟨0, ⟨times + 1, none⟩ :: ⟨times + 1, none⟩ :: rest⟩)
    (hidle : ∀ th ∈ rest, th.reg = none) (hown : own ≤ times)
    (hothers : others ≤ tally Updater.open rest) (hfirsts : firsts ≤ times) :
    ∃ l', R ⟨2 * times + 2 + tally Updater.open rest - (own + others + firsts), l'⟩ ∧
      ∀ th ∈ l', th = ⟨0, none⟩ := by
  -- The first thread reads the counter before anything has been counted.
  have hread := hR _ 0 _ h (step_of List.getElem?_cons_zero (plain_read Nat.succ 0 0 times))
  rw [List.set_cons_zero] at hread
  have hsecond := updates hR hread 1 (times + 1 - own) own
    (by rw [Nat.sub_add_cancel (Nat.le_succ_of_le hown)]; rfl)
  rcases several hR rest [⟨times, some 0⟩, ⟨times + 1 - own, none⟩] (0 + own) others hidle hothers
    hsecond with ⟨rest', hidle', htally, hmiddle⟩
  have hwrite := hR _ 0 _ hmiddle (step_of List.getElem?_cons_zero
    (plain_write Nat.succ 0 (0 + own + others) 0 times))
  -- The second reads the one that the first has written.
  have hleft : (⟨times + 1 - own, none⟩ : Updater Nat) = ⟨times - own + 1, none⟩ := by
    rw [Nat.sub_add_comm hown]
  rw [List.set_append_left _ _ (by simp), List.set_cons_zero, hleft] at hwrite
  have hread' := hR _ 1 _ hwrite
    (step_of (show _ = some (⟨times - own + 1, none⟩ : Updater Nat) from rfl)
      (plain_read Nat.succ 1 1 (times - own)))
  have hfirst := updates hR hread' 0 (times - firsts) firsts
    (by rw [Nat.sub_add_cancel hfirsts]; rfl)
  have hwrite' := hR _ 1 _ hfirst
    (step_of (show _ = some (⟨times - own, some 1⟩ : Updater Nat) from rfl)
      (plain_write Nat.succ 1 (1 + firsts) 1 (times - own)))
  rcases finish hR (l := ⟨times - firsts, none⟩ :: ⟨times - own, none⟩ :: rest') hwrite'
    (fun th hth => by
      rcases List.mem_cons.mp hth with rfl | hth
      · rfl
      · rcases List.mem_cons.mp hth with rfl | hth
        · rfl
        · exact hidle' th hth) with ⟨l', hend, hdone⟩
  refine ⟨l', ?_, hdone⟩
  rw [tally_cons, tally_cons, show (⟨times - firsts, none⟩ : Updater Nat).open = times - firsts
    from rfl, show (⟨times - own, none⟩ : Updater Nat).open = times - own from rfl] at hend
  rwa [show Nat.succ 1 + (times - firsts + (times - own + tally Updater.open rest')) =
    2 * times + 2 + tally Updater.open rest - (own + others + firsts) by omega] at hend

end Schedules

/-- How many updates have to be overwritten for a count, and by whom. -/
theorem exists_lost {times more k : Nat} (hk : 2 ≤ k) (hle : k ≤ 2 * times + 2 + more) :
    ∃ own others firsts, own ≤ times ∧ others ≤ more ∧ firsts ≤ times ∧
      k = 2 * times + 2 + more - (own + others + firsts) := by
  by_cases hfew : 2 * times + 2 + more - k ≤ more
  · exact ⟨0, 2 * times + 2 + more - k, 0, by omega, hfew, by omega, by omega⟩
  · by_cases hmore : 2 * times + 2 - k ≤ times
    · exact ⟨2 * times + 2 - k, more, 0, hmore, Nat.le_refl _, by omega, by omega⟩
    · exact ⟨times, more, times + 2 - k, Nat.le_refl _, Nat.le_refl _, by omega, by omega⟩

/-- All that plain updates may leave: the function applied any number of times
    from two to the number of updates. -/
theorem plain_outcomes_iff (f : α → α) (x₀ : α) {n times : Nat} (hn : 2 ≤ n) (htimes : 2 ≤ times)
    (x : α) :
    (∃ s, (system (plain f) (plainStart x₀ n times)).Reachable s ∧ PlainDone s ∧ s.shared = x) ↔
      ∃ k, 2 ≤ k ∧ k ≤ n * times ∧ x = f^[k] x₀ := by
  let F : Nat → α := fun k => f^[k] x₀
  let G : Updater Nat → Updater α := fun th => ⟨th.left, th.reg.map F⟩
  have hinit : plainStart x₀ n times =
      fun t => ∃ s, plainStart 0 n times s ∧ s.map F G = t := by
    ext t
    simp [plainStart, State.map, F, G, eq_comm]
  have hreach := reachable_map_iff (F := F) (G := G) (plain_map f x₀) (plainStart 0 n times)
  rw [← hinit] at hreach
  constructor
  · rintro ⟨t, ht, hdone, rfl⟩
    rcases (hreach t).mp ht with ⟨s, hs, rfl⟩
    have hcount := Counted.reachable hs
    have hopen : ∀ th ∈ s.threads, th.open = 0 := by
      intro th hth
      have hG := hdone _ (List.mem_map_of_mem (f := G) hth)
      rcases th with ⟨left, _ | v⟩
      · exact congrArg Updater.left hG
      · cases congrArg Updater.reg hG
    refine ⟨s.shared, ?_, Nat.le_trans (Nat.le_add_right _ _) hcount.below, rfl⟩
    -- All updates are completed, so the last one was not its thread's first.
    rcases hcount.last with hall | ⟨_, th, hth, _, htwo⟩
    · have hlength : s.threads.length = n :=
        reachable_length (fun s hs => by rw [show s = _ from hs, List.length_replicate]) hs
      rcases List.exists_mem_of_length_pos (l := s.threads) (by omega) with ⟨th, hth⟩
      have hzero := hopen th hth
      have hfull := hall th hth
      omega
    · exact htwo (by rw [hopen th hth]; omega)
  · rintro ⟨k, hk, hle, rfl⟩
    obtain ⟨n, rfl⟩ := Nat.exists_eq_add_of_le' hn
    obtain ⟨times, rfl⟩ := Nat.exists_eq_add_of_le' (Nat.le_of_succ_le htimes)
    have hrest : tally Updater.open (List.replicate n (⟨times + 1, none⟩ : Updater Nat)) =
        n * (times + 1) := by
      rw [tally_replicate]
      rfl
    have htotal : (n + 2) * (times + 1) = 2 * times + 2 + n * (times + 1) := by
      rw [Nat.add_mul]
      omega
    have hstart : (system (plain Nat.succ) (plainStart 0 (n + 2) (times + 1))).Reachable
        ⟨0, List.replicate (n + 2) ⟨times + 1, none⟩⟩ := .init _ rfl
    rw [List.replicate_succ, List.replicate_succ] at hstart
    -- What is missing from the count is overwritten by the first two threads.
    rcases exists_lost hk (htotal ▸ hle) with ⟨own, others, firsts, hown, hothers, hfirsts, rfl⟩
    have hlost := overwrite (fun s i t hs hst => .step s i t hs hst) hstart
      (fun th hth => by rw [List.eq_of_mem_replicate hth]) hown (hrest ▸ hothers) hfirsts
    rcases hlost with ⟨l, hl, hdone⟩
    rw [hrest] at hl
    refine ⟨State.map F G ⟨_, l⟩, (hreach _).mpr ⟨_, hl, rfl⟩, fun th hth => ?_, rfl⟩
    · rcases List.mem_map.mp hth with ⟨th', hth', rfl⟩
      rw [hdone th' hth']
      rfl

end Updates

end BlogSample
