import BlogSample.Theory.Monitor

/-!
# The Store

A bounded queue of products. `PurchaseProduct` waits while the store is full,
enqueues and pulses one waiter. `Sell` waits while it is empty, for a second at
a time, and gives up when a wait was in vain. It dequeues and pulses all
waiters. Both kinds of callers wait in the same wait set.

One pulse never goes to the wrong kind of waiter: a product is only enqueued
when the store is not full, and then no purchaser waits.

## Main definitions

* `Store`: The queue and its bound, with what went in and what came out.
* `purchaseProduct`, `sell`: The stretches of the two lock blocks.
* `program`: The two methods behind the lock.
* `Sound`: What holds in every state of every run.

## Theorems

* `sound`: Every run keeps `Sound`.
* `store_spec`: Bounded, first in first out, and no wake-up is lost.
-/

namespace BlogSample

namespace OwnConsumerPublisher

open Monitor Transition

variable {π : Type}

/-- The queue and its bound. What has been enqueued and what `Sell` has
    returned are recorded beside them. -/
structure Store (π : Type) where
  productQueue : List π
  maxInStock : Int
  enqueued : List π
  sold : List π

/-- The constructor. -/
def Store.new (maxInStock : Int) : Store π where
  productQueue := []
  maxInStock := maxInStock
  enqueued := []
  sold := []

/-- The two methods. -/
inductive Method (π : Type)
  | purchaseProduct (p : π)
  | sell
  deriving DecidableEq

/-- Is it a call of `PurchaseProduct`? -/
def Method.purchases : Method π → Bool
  | .purchaseProduct _ => true
  | .sell => false

/-- Is it a call of `Sell`? -/
def Method.sells : Method π → Bool
  | .purchaseProduct _ => false
  | .sell => true

/-- What a thread outside has got from its last call. -/
inductive Returned (π : Type)
  | uncalled
  | purchaseProduct
  | sell (p : Option π)
  deriving DecidableEq

/-- The lock block of `PurchaseProduct`, up to `Wait` or to its end. -/
def purchaseProduct (p : π) (s : Store π) : Stretch (Store π) (Returned π) :=
  if s.maxInStock ≤ s.productQueue.length then
    { shared := s, signal := .silent, next := .waits }
  else
    { shared := { s with
        productQueue := s.productQueue ++ [p]
        enqueued := s.enqueued ++ [p] }
      signal := .pulse
      next := .leaves .purchaseProduct }

/-- The lock block of `Sell`, up to `Wait` or to its end. The test of the loop
    is not made again when `Wait` has returned `false`. -/
def sell (entry : Entry) (s : Store π) : Stretch (Store π) (Returned π) :=
  match entry, s.productQueue with
  | .resumes false, _ => { shared := s, signal := .silent, next := .leaves (.sell none) }
  | _, [] => { shared := s, signal := .silent, next := .waits }
  | _, p :: rest =>
      { shared := { s with productQueue := rest, sold := s.sold ++ [p] }
        signal := .pulseAll
        next := .leaves (.sell (some p)) }

/-- The two methods behind the lock on the queue. Only `Sell` waits for a
    limited time. -/
def program : Program (Store π) (Returned π) (Method π) where
  calls := fun _ _ => true
  block := fun
    | .purchaseProduct p, _ => purchaseProduct p
    | .sell, entry => sell entry
  timed := Method.sells
  act := fun _ _ => none

/-- The runs of a new store with any number of threads. -/
def system (maxInStock : Int) :
    System (State (Store π) (Returned π) (Method π)) (Label (Method π)) :=
  Monitor.system program (Store.new maxInStock) .uncalled

/-- What holds in every state of every run. -/
structure Sound (maxInStock : Int) (s : State (Store π) (Returned π) (Method π)) : Prop where
  max : s.shared.maxInStock = maxInStock
  bound : s.shared.productQueue.length ≤ maxInStock
  fifo : s.shared.sold ++ s.shared.productQueue = s.shared.enqueued
  sellers : 0 < s.waiting Method.sells → s.shared.productQueue.length ≤ s.pulsed Method.sells
  purchasers : 0 < s.waiting Method.purchases → maxInStock ≤ s.shared.productQueue.length

section Steps

variable {maxInStock : Int} {s t : State (Store π) (Returned π) (Method π)}

/-- A new store is sound. -/
theorem sound_init (hmax : 1 ≤ maxInStock) (hshared : s.shared = Store.new maxInStock)
    (hthreads : ∀ thread ∈ s.threads, thread = .outside .uncalled) : Sound maxInStock s := by
  have hnone (p : Method π → Bool) : s.waiting p = 0 := by
    refine tally_waitingAs_of_nobody (fun thread hthread => ?_) p
    rw [hthreads thread hthread]
    rfl
  refine ⟨?_, ?_, ?_, fun hpos => ?_, fun hpos => ?_⟩
  · rw [hshared]
    rfl
  · rw [hshared]
    change ((0 : Nat) : Int) ≤ maxInStock
    omega
  · rw [hshared]
    rfl
  · rw [hnone] at hpos
    omega
  · rw [hnone] at hpos
    omega

/-- Only threads that wait or have been pulsed, and the queue, matter. -/
theorem Sound.congr (h : Sound maxInStock s) (hshared : t.shared = s.shared)
    (hsellers : t.waiting Method.sells ≤ s.waiting Method.sells)
    (hpulsed : t.pulsed Method.sells = s.pulsed Method.sells)
    (hpurchasers : t.waiting Method.purchases ≤ s.waiting Method.purchases) :
    Sound maxInStock t := by
  have hsell := h.sellers
  have hpurchase := h.purchasers
  refine ⟨hshared ▸ h.max, hshared ▸ h.bound, hshared ▸ h.fifo, fun hpos => ?_, fun hpos => ?_⟩
  · rw [hshared, hpulsed]
    exact hsell (Nat.lt_of_lt_of_le hpos hsellers)
  · rw [hshared]
    exact hpurchase (Nat.lt_of_lt_of_le hpos hpurchasers)

/-- A turn with `PurchaseProduct`. Where it enqueues, no purchaser waits, so the
    pulse goes to a seller if it goes to anyone. -/
theorem sound_purchaseProduct (h : Sound maxInStock s) {choice : Nat} {p : π} {entry : Entry}
    {woken : List (Thread (Returned π) (Method π))}
    (hturn : Turn s choice (.purchaseProduct p) entry (purchaseProduct p s.shared) woken t) :
    Sound maxInStock t := by
  have hmax := h.max
  have hbound := h.bound
  have hsellers := h.sellers
  have hpurchasers := h.purchasers
  have hself : entry.pulsedAs Method.sells (.purchaseProduct p) = 0 :=
    Entry.pulsedAs_of_not rfl entry
  unfold purchaseProduct at hturn
  split at hturn
  · next hfull =>
      have hshared : t.shared = s.shared := hturn.shared
      rcases hturn.silent_waits Method.sells with ⟨hsell, hsold, -⟩
      have hsell : t.waiting Method.sells = s.waiting Method.sells := hsell
      refine ⟨hshared ▸ hmax, hshared ▸ hbound, hshared ▸ h.fifo, fun hpos => ?_, fun _ => ?_⟩
      · rw [hshared]
        have hless := hsellers (hsell ▸ hpos)
        omega
      · rw [hshared]
        exact hmax ▸ hfull
  · next hfull =>
      have hshared := hturn.shared
      have hlength : t.shared.productQueue.length = s.shared.productQueue.length + 1 := by
        rw [hshared]
        exact List.length_append
      -- There is a free place, and purchasers only wait while there is none.
      have hnobody : s.waiting Method.purchases = 0 := by
        by_contra hpos
        have hstock := hpurchasers (Nat.pos_of_ne_zero hpos)
        omega
      have hfifo : t.shared.sold ++ t.shared.productQueue = t.shared.enqueued := by
        rw [hshared, ← h.fifo, List.append_assoc]
      rcases hturn.pulse_leaves with hnone | ⟨k, -, hcounts⟩
      · refine ⟨hshared ▸ hmax, by omega, hfifo, fun hpos => ?_, fun hpos => ?_⟩
        · exact absurd (hnone Method.sells).2.1 (Nat.pos_iff_ne_zero.mp hpos)
        · exact absurd (hnone Method.purchases).2.1 (Nat.pos_iff_ne_zero.mp hpos)
      · have hpurchase := (hcounts Method.purchases).1
        rcases hcounts Method.sells with ⟨hsell, hsold, -⟩
        cases k with
        | purchaseProduct p =>
            have hwoken : t.waiting Method.purchases + 1 = 0 := hpurchase.trans hnobody
            omega
        | sell =>
            -- One item more, and one pulsed seller for it.
            have hsell : t.waiting Method.sells + 1 = s.waiting Method.sells := hsell
            have hsold : t.pulsed Method.sells + _ = s.pulsed Method.sells + 1 := hsold
            have hless := hsellers (by omega)
            refine ⟨hshared ▸ hmax, by omega, hfifo, fun _ => by omega, fun hpos => ?_⟩
            omega

/-- A turn with `Sell`. Where it dequeues, nobody waits afterwards. -/
theorem sound_sell (h : Sound maxInStock s) {choice : Nat} {entry : Entry}
    {woken : List (Thread (Returned π) (Method π))}
    (hturn : Turn s choice .sell entry (sell entry s.shared) woken t) :
    Sound maxInStock t := by
  unfold sell at hturn
  split at hturn
  -- The seller has waited for too long and gives up.
  · rcases hturn.silent_leaves Method.sells with ⟨hsell, hsold⟩
    have hpurchase := (hturn.silent_leaves Method.purchases).1
    exact h.congr hturn.shared (Nat.le_of_eq hsell) hsold (Nat.le_of_eq hpurchase)
  · next hempty =>
      have hpurchase : t.waiting Method.purchases = s.waiting Method.purchases :=
        (hturn.silent_waits Method.purchases).1
      have hshared := hturn.shared
      refine ⟨hshared ▸ h.max, hshared ▸ h.bound, hshared ▸ h.fifo, fun _ => ?_, fun hpos => ?_⟩
      · rw [hshared, hempty]
        exact Nat.zero_le _
      · rw [hshared]
        exact h.purchasers (hpurchase ▸ hpos)
  · next p rest _ hqueue =>
      have hbound := h.bound
      have hfifo := h.fifo
      rw [hqueue] at hbound hfifo
      rw [List.length_cons] at hbound
      have hshared := hturn.shared
      refine ⟨hshared ▸ h.max, ?_, ?_, fun hpos => ?_, fun hpos => ?_⟩
      · rw [hshared]
        change (rest.length : Int) ≤ maxInStock
        omega
      · rw [hshared, ← hfifo, List.append_assoc]
        rfl
      -- Everybody who waited has been pulsed.
      · exact absurd (hturn.pulseAll_leaves _) (Nat.pos_iff_ne_zero.mp hpos)
      · exact absurd (hturn.pulseAll_leaves _) (Nat.pos_iff_ne_zero.mp hpos)

/-- A step. -/
theorem Sound.step (h : Sound maxInStock s) {a : Label (Method π)}
    (hstep : Monitor.step program s a = some t) : Sound maxInStock t := by
  cases step_moves hstep with
  | call hthread _ =>
      exact h.congr rfl (Nat.le_of_eq (tally_set (Thread.waitingAs Method.sells) _ hthread))
        (tally_set (Thread.pulsedAs Method.sells) _ hthread)
        (Nat.le_of_eq (tally_set (Thread.waitingAs Method.purchases) _ hthread))
  | expire hthread _ =>
      exact h.congr rfl
        (Nat.le_of_add_right_le (Nat.le_of_eq
          (tally_set (Thread.waitingAs Method.sells) _ hthread)))
        (tally_set (Thread.pulsedAs Method.sells) _ hthread)
        (Nat.le_of_add_right_le
          (Nat.le_of_eq (tally_set (Thread.waitingAs Method.purchases) _ hthread)))
  | act _ hact => cases hact
  | @run th choice thread k entry woken hthread hturn hsent =>
      have hturn := hsent.turn hthread hturn
      cases k with
      | purchaseProduct p => exact sound_purchaseProduct h hturn
      | sell => exact sound_sell h hturn

/-- Every state of every run is sound. -/
theorem sound (hmax : 1 ≤ maxInStock) (h : (system (π := π) maxInStock).Reachable s) :
    Sound maxInStock s := by
  refine h.invariant (Sound maxInStock) (fun s hs => ?_) (fun s a t hs hst => hs.step hst)
  exact sound_init hmax hs.1 hs.2

/-- The store holds no more than its bound. What `Sell` has returned, followed
    by what the store holds, is what has been enqueued, in order. While a
    seller waits un-pulsed, the store holds no more products than there are
    pulsed sellers, and while a purchaser waits un-pulsed, the store is full. -/
theorem store_spec (hmax : 1 ≤ maxInStock) (h : (system (π := π) maxInStock).Reachable s) :
    s.shared.productQueue.length ≤ maxInStock ∧
    s.shared.sold ++ s.shared.productQueue = s.shared.enqueued ∧
    (∀ th : Nat, s.threads[th]? = some (.waiting .sell) →
      s.shared.productQueue.length ≤ s.pulsed Method.sells) ∧
    (∀ (th : Nat) (p : π), s.threads[th]? = some (.waiting (.purchaseProduct p)) →
      maxInStock ≤ s.shared.productQueue.length) := by
  have hsound := sound hmax h
  refine ⟨hsound.bound, hsound.fifo, fun th hth => hsound.sellers ?_,
    fun th p hth => hsound.purchasers ?_⟩
  · exact (tally_pos_iff _ _).mpr ⟨_, List.mem_of_getElem? hth, Nat.one_pos⟩
  · exact (tally_pos_iff _ _).mpr ⟨_, List.mem_of_getElem? hth, Nat.one_pos⟩

end Steps

/-- A seller waits, is pulsed, and finds the product gone when it has its
    turn. -/
def lateSeller : List (Label (Method Nat)) :=
  [.call 0 .sell, .run 0 0, .call 1 (.purchaseProduct 7), .run 1 0, .call 2 .sell, .run 2 0,
    .run 0 0]

/-- A store for one product, and three threads. -/
theorem store_spec_lateSeller : ∃ s, (system (π := Nat) 1).Reachable s ∧
    s.shared.sold ++ s.shared.productQueue = [7] ∧
    s.shared.productQueue.length ≤ s.pulsed Method.sells := by
  rcases System.exists_exec (step program)
    { shared := Store.new 1, threads := List.replicate 3 (.outside .uncalled) } lateSeller
    (fun s => s.shared.enqueued == [7] && s.threads[0]? == some (.waiting .sell))
    (by decide) with ⟨s, hexec, hend⟩
  simp only [Bool.and_eq_true, beq_iff_eq] at hend
  have hreach : (system (π := Nat) 1).Reachable s := System.reachable_of_exec lateSeller _ s
    (.init _ ⟨rfl, fun _ hthread => List.eq_of_mem_replicate hthread⟩) hexec
  have hspec := store_spec (by decide) hreach
  exact ⟨s, hreach, hend.1 ▸ hspec.2.1, hspec.2.2.1 0 hend.2⟩

end OwnConsumerPublisher

end BlogSample
