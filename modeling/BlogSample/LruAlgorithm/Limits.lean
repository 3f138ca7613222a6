import BlogSample.LruAlgorithm.Refinement

/-!
# The Limits of the Cache

A cache with room for an entry never follows a null reference and never keeps
more keys than it has room for.

A cache without any room is full from the start. Its first `Put` takes the node
before the tail for the last entry, which is the other sentinel, and taking that
one out follows its null reference. A `Get` does no harm.

## Main definitions

* `WithinLimits`: No call throws, and no more keys are kept than the capacity.

## Theorems

* `run_get_empty`: A cache without entries stays as it is under `Get`.
* `put_noRoom`, `exists_run_throws`: `Put` into a cache without room.
* `withinLimits_iff`: When a cache keeps within its limits.
-/

namespace BlogSample

namespace LruAlgorithm

open DotNet

namespace LRUCache

/-- No call throws, and after each one there are at most as many keys as the capacity. -/
def WithinLimits (capacity : Int) (ops : List (Op Int Int)) : Prop :=
  ∀ ops', ops' <+: ops → ∃ replies c, run ops' (new capacity) = .ok (replies, c) ∧
    c.map.count ≤ capacity

/-- A call of `Get` on a cache without entries. -/
theorem run_get_cons (capacity key : Int) (ops : List (Op Int Int)) :
    run (.get key :: ops) (new capacity) =
      (run ops (new capacity) >>= fun s => pure (some (-1) :: s.1, s.2)) :=
  rfl

/-- A cache without entries stays as it is under `Get`. -/
theorem run_get_empty (capacity : Int) {ops : List (Op Int Int)}
    (h : ∀ op ∈ ops, ∃ key, op = .get key) :
    ∃ replies, run ops (new capacity) = .ok (replies, new capacity) := by
  induction ops with
  | nil => exact ⟨[], rfl⟩
  | cons op ops ih =>
      rcases List.forall_mem_cons.mp h with ⟨⟨key, rfl⟩, hrest⟩
      rcases ih hrest with ⟨replies, hrun⟩
      refine ⟨some (-1) :: replies, ?_⟩
      rw [run_get_cons, hrun]
      rfl

/-- `Put` into a cache without room takes the sentinel before the tail for an entry. -/
theorem put_noRoom (key value : Int) : (new 0).put key value = .error .nullReference :=
  rfl

/-- So the first `Put` throws, whatever was looked up before. -/
theorem exists_run_throws {ops : List (Op Int Int)} (h : ¬ ∀ op ∈ ops, ∃ key, op = .get key) :
    ∃ ops', ops' <+: ops ∧ run ops' (new 0) = .error .nullReference := by
  induction ops with
  | nil => exact absurd (fun op hop => absurd hop List.not_mem_nil) h
  | cons op ops ih =>
      cases op with
      | put key value =>
          -- Nothing has been put yet, and the cache is empty.
          refine ⟨[.put key value], ⟨ops, rfl⟩, ?_⟩
          rw [run, call, put_noRoom]
          rfl
      | get key =>
          rcases ih (fun hall => h (List.forall_mem_cons.mpr ⟨⟨key, rfl⟩, hall⟩)) with
            ⟨ops', hpre, hrun⟩
          refine ⟨.get key :: ops', List.cons_prefix_cons.mpr ⟨rfl, hpre⟩, ?_⟩
          rw [run_get_cons, hrun]
          rfl

/-- A cache keeps within its limits throughout some calls if and only if it has room for an
    entry or none of the calls is a `Put`. -/
theorem withinLimits_iff {capacity : Int} (hcap : 0 ≤ capacity) (ops : List (Op Int Int)) :
    WithinLimits capacity ops ↔ 1 ≤ capacity ∨ ∀ op ∈ ops, ∃ key, op = .get key := by
  constructor
  · intro h
    by_contra hnot
    rw [not_or] at hnot
    obtain rfl : capacity = 0 := by omega
    rcases exists_run_throws hnot.2 with ⟨ops', hpre, hthrows⟩
    rcases h ops' hpre with ⟨replies, c, hrun, -⟩
    rw [hthrows] at hrun
    cases hrun
  · rintro (hroom | hget) ops' hpre
    · rcases run_represents ops' (new_represents capacity) hroom with ⟨c, refs, hrun, hrep⟩
      have hrecent : Recent capacity.toNat ops' (MruList.run capacity.toNat ops' []).2 :=
        Recent.run (by omega) ops' (Recent.nil capacity.toNat [])
      refine ⟨_, c, hrun, ?_⟩
      -- There are as many keys as entries.
      have hlen := hrecent.room
      have hkeys : c.map.count = (MruList.run capacity.toNat ops' []).2.length :=
        hrep.count.trans hrep.length
      omega
    · rcases run_get_empty capacity (fun op hop => hget op (hpre.subset hop)) with
        ⟨replies, hrun⟩
      exact ⟨replies, new capacity, hrun, hcap⟩

theorem withinLimits_evicting :
    WithinLimits 2 evicting ↔ 1 ≤ (2 : Int) ∨ ∀ op ∈ evicting, ∃ key, op = .get key :=
  withinLimits_iff (by decide) evicting

/-- A cache without room fails at its first `Put`. -/
theorem not_withinLimits_noRoom : ¬ WithinLimits 0 [.put 1 1] := by
  intro h
  rcases h [.put 1 1] (List.prefix_refl _) with ⟨replies, c, hrun, -⟩
  cases hrun

end LRUCache

end LruAlgorithm

end BlogSample
