import BlogSample.Theory.Monitor

/-!
# The Blocking Queue

`Take` and `Add` of `OwnBlockQueue`. `Take` dequeues and pulses in its lock
block. `Add` tests the bound and pulses in its lock block, and enqueues after
it, so between the two the item is neither in the queue nor counted against
the bound. The number of such items is what every result here is about.

`Count` goes over the bound once an `Add` passes its test where the items under
way leave no room for one more.

## Main definitions

* `OwnBlockQueue`: The queue and its bound.
* `take`, `add`: The stretches of the two lock blocks.
* `program`: The two methods, and the `Enqueue` outside the lock.
* `hasRoom`: An `Add` that passes its test has room next to the items under way.

## Theorems

* `count_le_of_room`: `Count` stays in its bound where there is room, and goes
  over it where there is none.
* `count_exceeds`: Two calls of `Add` and a bound of one.
-/

namespace BlogSample

namespace BlockQueue

open Monitor Transition

variable {τ : Type}

/-- The fields of the class. -/
structure OwnBlockQueue (τ : Type) where
  queue : List τ
  maxLength : Int

/-- The constructor. -/
def OwnBlockQueue.new (maxLength : Int) : OwnBlockQueue τ where
  queue := []
  maxLength := maxLength

namespace OwnBlockQueue

/-- The property `Count`. -/
def count (s : OwnBlockQueue τ) : Int :=
  s.queue.length

theorem count_nonneg (s : OwnBlockQueue τ) : 0 ≤ s.count :=
  Int.natCast_nonneg _

end OwnBlockQueue

/-- The two methods. -/
inductive Method (τ : Type)
  | take
  | add (data : τ)
  deriving DecidableEq

/-- Is it a call of `Take`? -/
def Method.takes : Method τ → Bool
  | .take => true
  | .add _ => false

/-- Is it a call of `Add`? -/
def Method.adds : Method τ → Bool
  | .take => false
  | .add _ => true

/-- A thread outside has made no call, has got something from its last call,
    or has left the lock block of `Add` and has yet to enqueue. -/
inductive Place (τ : Type)
  | uncalled
  | take (result : τ)
  | enqueues (data : τ)
  | add
  deriving DecidableEq

/-- Is an item under way? -/
def Place.underWay : Place τ → Bool
  | .enqueues _ => true
  | _ => false

/-- The lock block of `Take`, up to `Wait` or to its end. -/
def take (s : OwnBlockQueue τ) : Stretch (OwnBlockQueue τ) (Place τ) :=
  match s.queue with
  | [] => { shared := s, signal := .silent, next := .waits }
  | result :: rest =>
      { shared := { s with queue := rest }, signal := .pulse, next := .leaves (.take result) }

/-- The lock block of `Add`, up to `Wait` or to its end. -/
def add (data : τ) (s : OwnBlockQueue τ) : Stretch (OwnBlockQueue τ) (Place τ) :=
  if s.maxLength ≤ s.count then
    { shared := s, signal := .silent, next := .waits }
  else
    -- The item is not in the queue yet when the lock is given back.
    { shared := s, signal := .pulse, next := .leaves (.enqueues data) }

/-- The two methods behind the lock on the queue. An `Add` ends with its
    `Enqueue`, outside the lock. -/
def program : Program (OwnBlockQueue τ) (Place τ) (Method τ) where
  calls := fun place _ => !place.underWay
  block := fun
    | .take, _ => take
    | .add data, _ => add data
  timed := fun _ => false
  act := fun
    | .enqueues data, s => some ({ s with queue := s.queue ++ [data] }, .add)
    | _, _ => none

/-- The runs of a new queue with any number of threads. -/
def system (maxLength : Int) :
    System (State (OwnBlockQueue τ) (Place τ) (Method τ)) (Label (Method τ)) :=
  Monitor.system program (OwnBlockQueue.new maxLength) .uncalled

/-- How many items are under way. -/
def underWay (s : State (OwnBlockQueue τ) (Place τ) (Method τ)) : Nat :=
  s.outside Place.underWay

/-- Is there room for one more in the queue, next to the items under way? -/
def room (s : State (OwnBlockQueue τ) (Place τ) (Method τ)) : Bool :=
  s.shared.count + underWay s < s.shared.maxLength

/-- If the step is a turn of an `Add` that passes its test, is there room? -/
def hasRoom (s : State (OwnBlockQueue τ) (Place τ) (Method τ)) : Label (Method τ) → Bool
  | .run th _ =>
      match s.threads[th]?.bind Thread.turn with
      | some (.add _, _) => s.shared.maxLength ≤ s.shared.count || room s
      | _ => true
  | _ => true

section Steps

variable {maxLength : Int} {s t : State (OwnBlockQueue τ) (Place τ) (Method τ)}

/-- The bound never changes. -/
theorem maxLength_eq (h : (system (τ := τ) maxLength).Reachable s) :
    s.shared.maxLength = maxLength := by
  refine shared_invariant (fun shared => shared.maxLength = maxLength) rfl ?_ ?_ h
  · intro k entry shared hshared
    cases k with
    | take =>
        change (take shared).shared.maxLength = maxLength
        unfold take
        split
        · exact hshared
        · exact hshared
    | add data =>
        change (add data shared).shared.maxLength = maxLength
        unfold add
        split
        · exact hshared
        · exact hshared
  · intro o o' shared shared' hshared hact
    cases o with
    | uncalled => cases hact
    | take result => cases hact
    | add => cases hact
    | enqueues data =>
        cases hact
        exact hshared

/-- Nothing is under way before the first call. -/
theorem underWay_of_uncalled (h : ∀ thread ∈ s.threads, thread = .outside .uncalled) :
    underWay s = 0 := by
  by_contra hpos
  rcases (tally_pos_iff _ _).mp (Nat.pos_of_ne_zero hpos) with ⟨thread, hthread, hweight⟩
  rw [h thread hthread] at hweight
  cases hweight

/-- What an `Enqueue` does. -/
theorem act_counts {th : Nat} {o o' : Place τ} {shared : OwnBlockQueue τ}
    (hthread : s.threads[th]? = some (.outside o))
    (hact : program.act o s.shared = some (shared, o'))
    (ht : t = { shared := shared, threads := s.threads.set th (.outside o') }) :
    t.shared.count = s.shared.count + 1 ∧ t.shared.maxLength = s.shared.maxLength ∧
      underWay t + 1 = underWay s := by
  subst ht
  cases o with
  | uncalled => cases hact
  | take result => cases hact
  | add => cases hact
  | enqueues data =>
      cases hact
      refine ⟨?_, rfl, tally_set (Thread.outsideAs Place.underWay) _ hthread⟩
      unfold OwnBlockQueue.count
      rw [List.length_append]
      rfl

/-- A turn with `Take` does not add to the items under way. -/
theorem take_counts {choice : Nat} {entry : Entry}
    {woken : List (Thread (Place τ) (Method τ))}
    (hturn : Turn s choice .take entry (take s.shared) woken t) :
    t.shared.count ≤ s.shared.count ∧ t.shared.maxLength = s.shared.maxLength ∧
      underWay t = underWay s := by
  unfold take at hturn
  split at hturn
  · exact ⟨Int.le_of_eq (congrArg OwnBlockQueue.count hturn.shared),
      congrArg OwnBlockQueue.maxLength hturn.shared, hturn.outside Place.underWay⟩
  · next result rest hqueue =>
      refine ⟨?_, by rw [hturn.shared], hturn.outside Place.underWay⟩
      rw [hturn.shared]
      unfold OwnBlockQueue.count
      rw [hqueue, List.length_cons]
      change (rest.length : Int) ≤ _
      omega

/-- A turn with `Add` adds to the items under way if the test is passed. -/
theorem add_counts {choice : Nat} {data : τ} {entry : Entry}
    {woken : List (Thread (Place τ) (Method τ))}
    (hturn : Turn s choice (.add data) entry (add data s.shared) woken t) :
    t.shared = s.shared ∧
      (s.shared.count < s.shared.maxLength → underWay t = underWay s + 1) ∧
      (s.shared.maxLength ≤ s.shared.count → underWay t = underWay s) := by
  unfold add at hturn
  split at hturn
  · next hfull =>
      exact ⟨hturn.shared, fun hroom => absurd hfull (Int.not_le.mpr hroom),
        fun _ => hturn.outside Place.underWay⟩
  · next hfull =>
      exact ⟨hturn.shared, fun _ => hturn.outside Place.underWay,
        fun hle => absurd hle hfull⟩

/-- What is in the queue or under way does not go over the bound in a step, if
    the step has room. -/
theorem count_add_underWay_step {a : Label (Method τ)} (hstep : step program s a = some t)
    (hroom : hasRoom s a = true) (hle : s.shared.count + underWay s ≤ s.shared.maxLength) :
    t.shared.count + underWay t ≤ t.shared.maxLength := by
  cases step_moves hstep with
  | @call th place k hthread hcalls =>
      -- The caller is no longer outside, which may only lower the sum.
      have hset := tally_set (Thread.outsideAs Place.underWay) (.entering k) hthread
      have hunder : underWay (s.setThread th (.entering k)) + place.underWay.toNat =
        underWay s := hset
      change s.shared.count + underWay (s.setThread th (.entering k)) ≤ s.shared.maxLength
      omega
  | expire hthread htimed => cases htimed
  | act hthread hact =>
      rcases act_counts hthread hact rfl with ⟨hcount, hmax, hunder⟩
      rw [hcount, hmax]
      omega
  | @run th choice thread k entry woken hthread hturn hsent =>
      have hmoved := hsent.turn hthread hturn
      cases k with
      | take =>
          rcases take_counts hmoved with ⟨hcount, hmax, hunder⟩
          rw [hmax, hunder]
          omega
      | add data =>
          simp only [hasRoom, room, hthread, Option.bind_some, hturn, Bool.or_eq_true,
            decide_eq_true_iff] at hroom
          rcases add_counts hmoved with ⟨hshared, hpass, hfull⟩
          rw [hshared]
          by_cases hlt : s.shared.count < s.shared.maxLength
          -- The test is passed, so one item more is under way.
          · have hfree := hroom.resolve_left (Int.not_le.mpr hlt)
            rw [hpass hlt]
            omega
          · rw [hfull (Int.not_lt.mp hlt)]
            exact hle

/-- The items under way can all be enqueued next. -/
theorem exists_enqueued (n : Nat) : ∀ s : State (OwnBlockQueue τ) (Place τ) (Method τ),
    underWay s = n → ∃ as t, System.exec (step program) s as = some t ∧
      t.shared.count = s.shared.count + n ∧ t.shared.maxLength = s.shared.maxLength ∧
      underWay t = 0 ∧ ∀ p, t.waiting p = s.waiting p ∧ t.inLine p = s.inLine p := by
  induction n with
  | zero =>
      exact fun s hs => ⟨[], s, rfl, (Int.add_zero _).symm, rfl, hs, fun p => ⟨rfl, rfl⟩⟩
  | succ n ih =>
      intro s hn
      -- Some thread is about to enqueue, and is let do so.
      have hpos : 0 < underWay s := by omega
      rcases (tally_pos_iff _ _).mp hpos with ⟨thread, hmem, hweight⟩
      rcases List.getElem?_of_mem hmem with ⟨th, hthread⟩
      cases thread with
      | entering k => cases hweight
      | waiting k => cases hweight
      | ready k pulsed => cases hweight
      | outside place =>
          cases place with
          | uncalled => cases hweight
          | take result => cases hweight
          | add => cases hweight
          | enqueues data =>
              have hstep : step program s (.act th) = some
                  { shared := { s.shared with queue := s.shared.queue ++ [data] }
                    threads := s.threads.set th (.outside .add) } := by
                simp only [step, hthread]
                rfl
              rcases act_counts hthread rfl rfl with ⟨hcount, hmax, hunder⟩
              rcases ih _ (Nat.succ.inj (hunder.trans hn)) with
                ⟨as, t, hexec, ht, htmax, hnone, hsame⟩
              refine ⟨.act th :: as, t, ?_, ?_, htmax.trans hmax, hnone, fun p => ?_⟩
              · rw [System.exec, hstep]
                exact hexec
              · rw [ht, hcount]
                omega
              · exact ⟨(hsame p).1.trans (tally_set (Thread.waitingAs p) _ hthread),
                  (hsame p).2.trans (tally_set (Thread.inLineAs p) _ hthread)⟩

/-- Where every `Add` that passes its test has room, `Count` stays in its
    bound. An `Add` that has none takes `Count` over the bound, once the items
    under way are enqueued. -/
theorem count_le_of_room (hmax : 1 ≤ maxLength) :
    (∀ s, ((system (τ := τ) maxLength).restrict (hasRoom · · = true)).Reachable s →
      s.shared.count ≤ maxLength) ∧
    ∀ (s t : State (OwnBlockQueue τ) (Place τ) (Method τ)) (a : Label (Method τ)),
      (system maxLength).Reachable s → step program s a = some t → hasRoom s a = false →
      ∃ as u, System.exec (step program) t as = some u ∧ maxLength < u.shared.count := by
  refine ⟨fun s hs => ?_, fun s t a hs hstep hroom => ?_⟩
  · have hsum : s.shared.count + underWay s ≤ s.shared.maxLength := by
      refine hs.invariant (fun s => s.shared.count + underWay s ≤ s.shared.maxLength)
        (fun s hs => ?_) (fun s a t hle hst => ?_)
      · rw [hs.1, underWay_of_uncalled hs.2]
        change (0 : Int) + 0 ≤ maxLength
        omega
      · exact count_add_underWay_step hst.2 hst.1 hle
    rw [maxLength_eq hs.of_restrict] at hsum
    omega
  · have hbound := maxLength_eq hs
    cases step_moves hstep with
    | call _ _ => cases hroom
    | expire _ _ => cases hroom
    | act _ _ => cases hroom
    | @run th choice thread k entry woken hthread hturn hsent =>
        simp only [hasRoom, room, hthread, Option.bind_some, hturn] at hroom
        cases k with
        | take => cases hroom
        | add data =>
            -- Enqueue all that is under way after the step, this item included.
            simp only [Bool.or_eq_false_iff, decide_eq_false_iff_not, Int.not_le] at hroom
            rcases hroom with ⟨hpass, hfull⟩
            have hmoved := hsent.turn hthread hturn
            rcases add_counts hmoved with ⟨hshared, hunder, -⟩
            rcases exists_enqueued _ _ rfl with ⟨as, u, hexec, hcount, -, -, -⟩
            refine ⟨as, u, hexec, ?_⟩
            rw [hcount, hshared, hunder hpass]
            omega

end Steps

/-- Two threads pass the test before either of them enqueues. -/
def twoAdds : List (Label (Method Nat)) :=
  [.call 0 (.add 1), .run 0 0, .call 1 (.add 2), .run 1 0, .act 0, .act 1]

/-- Two calls of `Add` fill a queue for one item with two. -/
theorem count_exceeds : ¬ ∀ maxLength : Int, 1 ≤ maxLength →
    ∀ s, (system (τ := Nat) maxLength).Reachable s → s.shared.count ≤ maxLength := by
  intro h
  rcases System.exists_exec (step program)
    { shared := OwnBlockQueue.new 1, threads := List.replicate 2 (.outside .uncalled) } twoAdds
    (fun s => s.shared.queue == [1, 2]) (by decide) with ⟨s, hexec, hend⟩
  have hreach : (system (τ := Nat) 1).Reachable s := System.reachable_of_exec twoAdds _ s
    (.init _ ⟨rfl, fun _ hthread => List.eq_of_mem_replicate hthread⟩) hexec
  have hle := h 1 (Int.le_refl 1) s hreach
  unfold OwnBlockQueue.count at hle
  rw [beq_iff_eq.mp hend] at hle
  exact absurd hle (by decide)

/-- A thread takes what another one adds, and both find room. -/
def turnByTurn : List (Label (Method Nat)) :=
  [.call 0 (.add 1), .run 0 0, .act 0, .call 1 .take, .run 1 0, .call 0 (.add 2), .run 0 0, .act 0]

/-- One item at a time, in a queue for one item. -/
theorem count_le_turnByTurn :
    ∃ s, ((system (τ := Nat) 1).restrict (hasRoom · · = true)).Reachable s ∧
    s.shared.queue = [2] ∧ s.shared.count ≤ 1 := by
  rcases System.exists_exec (System.guarded hasRoom (step program))
    { shared := OwnBlockQueue.new 1, threads := List.replicate 2 (.outside .uncalled) } turnByTurn
    (fun s => s.shared.queue == [2]) (by decide) with ⟨s, hexec, hend⟩
  rcases System.Run.of_guarded turnByTurn .nil (fun _ h => absurd h List.not_mem_nil) hexec with
    ⟨steps, hrun, hroom⟩
  have hreach : ((system (τ := Nat) 1).restrict (hasRoom · · = true)).Reachable s :=
    (hrun.restrict hroom).reachable ⟨rfl, fun _ hthread => List.eq_of_mem_replicate hthread⟩
  exact ⟨s, hreach, beq_iff_eq.mp hend, (count_le_of_room (Int.le_refl 1)).1 s hreach⟩

end BlockQueue

end BlogSample
