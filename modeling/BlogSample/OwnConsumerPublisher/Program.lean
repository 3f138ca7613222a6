import BlogSample.OwnConsumerPublisher.Store
import BlogSample.Theory.Callers

/-!
# Factories and Customers

The tasks that `Main` starts on one store. A factory puts its products into
the store one after the other. A customer buys until a wait of its has been in
vain, and leaves for good.

So the customers may be gone before the products are. A factory waits without
a limit for room in the store, and if more is left than there is room for,
`Main` never comes to its end. That is the only way in which it can hang: as
long as a customer is still there, or the room suffices, all tasks can end,
and no product is lost or sold twice.

## Main definitions

* `Product`, `Client`: The products, and where a task is between two calls.
* `clients`: The tasks as callers of the store.
* `main`: The runs of the tasks.
* `Goes`: What a step does.
* `Market.Inv`: The invariant.
* `Market.CanEnd`: A customer is still there, or the room suffices.

## Theorems

* `goes_iff`: The steps are what `Goes` says.
* `reachable_inv`: The invariant holds.
* `exists_nearer`: Some step brings the end nearer.
* `hangs_iff`: When this can cease to be so.
* `main_ends_iff`: When all tasks can end.
* `sold_inOrder`: What is sold of a task's products.
-/

namespace BlogSample

namespace OwnConsumerPublisher

open Monitor Transition

/-- A product, by the task that creates it, whose thread is in its name, and
    its price. -/
structure Product where
  task : Nat
  price : Nat
  deriving DecidableEq

/-- Where a task is between two calls: in a round of `CreateProduct`, in the
    loop of `Buy`, or behind it. -/
inductive Client
  | createProduct (task i : Nat)
  | buy
  | left
  deriving DecidableEq

/-- `CreateProduct` calls `PurchaseProduct` in each of its rounds, and `Buy`
    calls `Sell`. -/
def calls (times : Nat) : Client → Method Product → Bool
  | .createProduct task i, .purchaseProduct p => decide (i < times ∧ p = ⟨task, i⟩)
  | .buy, .sell => true
  | _, _ => false

/-- Where they go on after a call. `Buy` ends when `Sell` has returned
    `null`. -/
def after : Method Product → Returned Product → Client
  | .purchaseProduct p, _ => .createProduct p.task (p.price + 1)
  | .sell, .sell none => .left
  | .sell, _ => .buy

/-- The tasks as callers of the store. -/
def clients (times : Nat) : Program (Store Product) Client (Method Product) :=
  program.callers (calls times) after

/-- A store and the tasks. -/
abbrev Market := State (Store Product) Client (Method Product)

/-- `Main` has started customers and factories on a new store. -/
def opening (maxInStock : Int) (customers factories : Nat) : Market where
  shared := Store.new maxInStock
  threads := List.replicate customers (.outside .buy) ++
    (List.range factories).map (fun task => .outside (.createProduct task 0))

/-- The runs of the tasks, each factory creating a number of products. -/
def main (maxInStock : Int) (customers factories times : Nat) :
    System Market (Label (Method Product)) :=
  System.ofFn (fun s => s = opening maxInStock customers factories) (step (clients times))

/-- A task has ended. -/
def Ended (times : Nat) (thread : Thread Client (Method Product)) : Prop :=
  thread = .outside .left ∨ ∃ task, thread = .outside (.createProduct task times)

/-! ### Steps -/

section Steps

variable {times : Nat} {s t : Market}

theorem block_purchaseProduct (times : Nat) (p : Product) (entry : Entry) (shared : Store Product) :
    (clients times).block (.purchaseProduct p) entry shared =
      if shared.maxInStock ≤ shared.productQueue.length then
        { shared := shared, signal := .silent, next := .waits }
      else
        { shared := { shared with
            productQueue := shared.productQueue ++ [p]
            enqueued := shared.enqueued ++ [p] }
          signal := .pulse
          next := .leaves (.createProduct p.task (p.price + 1)) } := by
  change (purchaseProduct p shared).map (after (.purchaseProduct p)) = _
  unfold purchaseProduct
  by_cases hfull : shared.maxInStock ≤ shared.productQueue.length
  · rw [if_pos hfull, if_pos hfull]
    rfl
  · rw [if_neg hfull, if_neg hfull]
    rfl

/-- A seller that has not waited in vain looks at the queue. -/
theorem sell_eq {entry : Entry} (h : entry ≠ .resumes false) (shared : Store Product) :
    sell entry shared =
      match shared.productQueue with
      | [] => { shared := shared, signal := .silent, next := .waits }
      | p :: rest =>
          { shared := { shared with productQueue := rest, sold := shared.sold ++ [p] }
            signal := .pulseAll
            next := .leaves (.sell (some p)) } := by
  unfold sell
  cases entry with
  | enters => cases shared.productQueue <;> rfl
  | resumes pulsed =>
      cases pulsed with
      | false => exact absurd rfl h
      | true => cases shared.productQueue <;> rfl

/-- What a step does, by the thread that takes it. -/
inductive Goes (times : Nat) (s : Market) : Market → Prop
  | createProduct (th task i : Nat) :
      s.threads[th]? = some (.outside (.createProduct task i)) → i < times →
      Goes times s (s.setThread th (.entering (.purchaseProduct ⟨task, i⟩)))
  | buy (th : Nat) : s.threads[th]? = some (.outside .buy) →
      Goes times s (s.setThread th (.entering .sell))
  | full (th : Nat) (thread : Thread Client (Method Product)) (p : Product) (entry : Entry) :
      s.threads[th]? = some thread → thread.turn = some (.purchaseProduct p, entry) →
      s.shared.maxInStock ≤ s.shared.productQueue.length →
      Goes times s (s.setThread th (.waiting (.purchaseProduct p)))
  | enqueue (th choice : Nat) (thread : Thread Client (Method Product)) (p : Product)
      (entry : Entry) (woken : List (Thread Client (Method Product))) :
      s.threads[th]? = some thread → thread.turn = some (.purchaseProduct p, entry) →
      ¬ s.shared.maxInStock ≤ s.shared.productQueue.length →
      Sent s.threads choice .pulse woken →
      Goes times s
        { shared := { s.shared with
            productQueue := s.shared.productQueue ++ [p]
            enqueued := s.shared.enqueued ++ [p] }
          threads := woken.set th (.outside (.createProduct p.task (p.price + 1))) }
  | giveUp (th : Nat) : s.threads[th]? = some (.ready .sell false) →
      Goes times s (s.setThread th (.outside .left))
  | empty (th : Nat) (thread : Thread Client (Method Product)) (entry : Entry) :
      s.threads[th]? = some thread → thread.turn = some (.sell, entry) →
      entry ≠ .resumes false → s.shared.productQueue = [] →
      Goes times s (s.setThread th (.waiting .sell))
  | dequeue (th : Nat) (thread : Thread Client (Method Product)) (entry : Entry) (p : Product)
      (rest : List Product) : s.threads[th]? = some thread →
      thread.turn = some (.sell, entry) → entry ≠ .resumes false →
      s.shared.productQueue = p :: rest →
      Goes times s
        { shared := { s.shared with productQueue := rest, sold := s.shared.sold ++ [p] }
          threads := (s.threads.map Thread.wake).set th (.outside .buy) }
  | expire (th : Nat) : s.threads[th]? = some (.waiting .sell) →
      Goes times s (s.setThread th (.ready .sell false))

theorem turn_eq_giveUp {thread : Thread Client (Method Product)}
    (h : thread.turn = some (.sell, .resumes false)) : thread = .ready .sell false := by
  cases thread with
  | ready k pulsed =>
      cases h
      rfl
  | outside o => cases h
  | entering k => cases h
  | waiting k => cases h

theorem goes_of_step {a : Label (Method Product)} (h : step (clients times) s a = some t) :
    Goes times s t := by
  cases step_moves h with
  | @call th o k hthread hcalls =>
      have hcalls : calls times o k = true := hcalls
      cases o with
      | createProduct task i =>
          cases k with
          | purchaseProduct p =>
              rcases of_decide_eq_true hcalls with ⟨hi, rfl⟩
              exact .createProduct th task i hthread hi
          | sell => cases hcalls
      | buy =>
          cases k with
          | purchaseProduct p => cases hcalls
          | sell => exact .buy th hthread
      | left => cases hcalls
  | @run th choice thread k entry woken hthread hturn hsent =>
      cases k with
      | purchaseProduct p =>
          rw [block_purchaseProduct] at hsent ⊢
          -- It waits while the store is full.
          by_cases hfull : s.shared.maxInStock ≤ s.shared.productQueue.length
          · rw [if_pos hfull] at hsent ⊢
            cases hsent
            exact .full th thread p entry hthread hturn hfull
          · rw [if_neg hfull] at hsent ⊢
            exact .enqueue th choice thread p entry woken hthread hturn hfull hsent
      | sell =>
          change Sent s.threads choice ((sell entry s.shared).map (after .sell)).signal woken
            at hsent
          change Goes times s
            { shared := ((sell entry s.shared).map (after .sell)).shared
              threads := woken.set th
                (((sell entry s.shared).map (after .sell)).next.thread .sell) }
          -- A `Wait` that has timed out ends the loop of `Sell`.
          by_cases hentry : entry = .resumes false
          · subst hentry
            cases hsent
            exact .giveUp th (turn_eq_giveUp hturn ▸ hthread)
          · rw [sell_eq hentry] at hsent ⊢
            cases hqueue : s.shared.productQueue with
            | nil =>
                rw [hqueue] at hsent
                cases hsent
                exact .empty th thread entry hthread hturn hentry hqueue
            | cons p rest =>
                rw [hqueue] at hsent
                cases hsent
                exact .dequeue th thread entry p rest hthread hturn hentry hqueue
  | @expire th k hthread htimed =>
      cases k with
      -- `PurchaseProduct` waits without a limit.
      | purchaseProduct p => cases htimed
      | sell => exact .expire th hthread
  | act _ hact => cases hact

/-- A stretch that can send its signal is a step. -/
theorem step_of_turn {th choice : Nat} {thread : Thread Client (Method Product)}
    {k : Method Product} {entry : Entry} (woken : List (Thread Client (Method Product)))
    (hthread : s.threads[th]? = some thread) (hturn : thread.turn = some (k, entry))
    (hsent : Sent s.threads choice ((clients times).block k entry s.shared).signal woken) :
    step (clients times) s (.run th choice) =
      some
        { shared := ((clients times).block k entry s.shared).shared
          threads := woken.set th (((clients times).block k entry s.shared).next.thread k) } := by
  simp only [step, hthread, Option.bind_some, hturn, sent_send hsent, Option.map_some]

theorem step_of_goes (h : Goes times s t) : ∃ a, step (clients times) s a = some t := by
  cases h with
  | createProduct th task i hthread hi =>
      have hcalls : (clients times).calls (.createProduct task i) (.purchaseProduct ⟨task, i⟩) =
          true := decide_eq_true ⟨hi, rfl⟩
      exact ⟨.call th (.purchaseProduct ⟨task, i⟩), by simp only [step, hthread, hcalls, if_true]⟩
  | buy th hthread =>
      have hcalls : (clients times).calls .buy .sell = true := rfl
      exact ⟨.call th .sell, by simp only [step, hthread, hcalls, if_true]⟩
  | full th thread p entry hthread hturn hfull =>
      -- The signal of the block decides which threads are woken, here none.
      have hblock := block_purchaseProduct times p entry s.shared
      rw [if_pos hfull] at hblock
      refine ⟨.run th 0, ?_⟩
      rw [step_of_turn s.threads hthread hturn (by rw [hblock]; exact .silent), hblock]
      rfl
  | enqueue th choice thread p entry woken hthread hturn hfull hsent =>
      -- `Pulse` wakes the thread of the choice.
      have hblock := block_purchaseProduct times p entry s.shared
      rw [if_neg hfull] at hblock
      refine ⟨.run th choice, ?_⟩
      rw [step_of_turn _ hthread hturn (by rw [hblock]; exact hsent), hblock]
      rfl
  | giveUp th hthread =>
      exact ⟨.run th 0, step_of_turn s.threads hthread rfl .silent⟩
  | empty th thread entry hthread hturn hentry hqueue =>
      have hblock : (clients times).block .sell entry s.shared =
          (sell entry s.shared).map (after .sell) := rfl
      rw [sell_eq hentry, hqueue] at hblock
      refine ⟨.run th 0, ?_⟩
      rw [step_of_turn s.threads hthread hturn (by rw [hblock]; exact .silent), hblock]
      rfl
  | dequeue th thread entry p rest hthread hturn hentry hqueue =>
      have hblock : (clients times).block .sell entry s.shared =
          (sell entry s.shared).map (after .sell) := rfl
      rw [sell_eq hentry, hqueue] at hblock
      refine ⟨.run th 0, ?_⟩
      rw [step_of_turn _ hthread hturn (by rw [hblock]; exact .pulseAll), hblock]
      rfl
  | expire th hthread =>
      have htimed : (clients times).timed .sell = true := rfl
      exact ⟨.expire th, by simp only [step, hthread, htimed, if_true]⟩

/-- The steps are what `Goes` says. -/
theorem goes_iff : (∃ a, step (clients times) s a = some t) ↔ Goes times s t :=
  ⟨fun h => goes_of_step h.choose_spec, step_of_goes⟩

end Steps

/-! ### The invariant -/

/-- The product of the round that a factory is in. -/
def round : Thread Client (Method Product) → Option Product
  | .outside (.createProduct task i) => some ⟨task, i⟩
  | .entering (.purchaseProduct p) => some p
  | .waiting (.purchaseProduct p) => some p
  | .ready (.purchaseProduct p) _ => some p
  | _ => none

/-- How many products a thread still has to put into the store. -/
def toMake (times : Nat) (thread : Thread Client (Method Product)) : Nat :=
  match round thread with
  | some p => times - p.price
  | none => 0

/-- How many products of a task a thread has put into the store. -/
def made (task : Nat) (thread : Thread Client (Method Product)) : Nat :=
  match round thread with
  | some p => if p.task = task then p.price else 0
  | none => 0

/-- Counts the thread of a task. -/
def ofTask (task : Nat) (thread : Thread Client (Method Product)) : Nat :=
  match round thread with
  | some p => if p.task = task then 1 else 0
  | none => 0

/-- A customer that is still in the store, and has not waited in vain. -/
def shops : Thread Client (Method Product) → Bool
  | .outside .buy => true
  | .entering .sell => true
  | .waiting .sell => true
  | .ready .sell true => true
  | _ => false

/-- How many products are still to be put into the store. -/
def Market.remaining (times : Nat) (s : Market) : Nat :=
  tally (toMake times) s.threads

/-- A factory is in one of its rounds, or behind them. -/
def InRound (times : Nat) (thread : Thread Client (Method Product)) : Prop :=
  ∀ p, round thread = some p →
    p.price ≤ times ∧ (p.price = times → thread = .outside (.createProduct p.task times))

/-- A factory is in one of its rounds, or behind them; each task has one
    thread, whose products have come into the store in order, and all products
    are there or still to come. -/
structure Market.Inv (factories times : Nat) (s : Market) : Prop where
  rounds : ∀ thread ∈ s.threads, InRound times thread
  one : ∀ task, tally (ofTask task) s.threads = if task < factories then 1 else 0
  inOrder : ∀ task, s.shared.enqueued.filter (fun p => p.task = task) =
    (List.range (tally (made task) s.threads)).map (Product.mk task)
  all : s.shared.enqueued.length + s.remaining times = factories * times

theorem round_wake (thread : Thread Client (Method Product)) :
    round thread.wake = round thread := by
  cases thread with
  | waiting k => cases k <;> rfl
  | outside o => rfl
  | entering k => rfl
  | ready k pulsed => rfl

theorem InRound.wake {times : Nat} {thread : Thread Client (Method Product)}
    (h : InRound times thread) : InRound times thread.wake := by
  intro p hp
  rw [round_wake] at hp
  rcases h p hp with ⟨hle, houtside⟩
  refine ⟨hle, fun heq => ?_⟩
  rw [houtside heq]
  rfl

/-- The product that a thread in line is about to put into the store is that
    of its round. -/
theorem round_of_turn {thread : Thread Client (Method Product)} {p : Product} {entry : Entry}
    (h : thread.turn = some (.purchaseProduct p, entry)) : round thread = some p := by
  cases thread with
  | outside o => cases h
  | waiting k => cases h
  | entering k =>
      cases h
      rfl
  | ready k pulsed =>
      cases h
      rfl

theorem round_of_turn_sell {thread : Thread Client (Method Product)} {entry : Entry}
    (h : thread.turn = some (.sell, entry)) : round thread = none := by
  cases thread with
  | outside o => cases h
  | waiting k => cases h
  | entering k =>
      cases h
      rfl
  | ready k pulsed =>
      cases h
      rfl

section Invariant

variable {maxInStock : Int} {customers factories times : Nat} {s t : Market}

theorem toMake_congr {thread thread' : Thread Client (Method Product)}
    (h : round thread' = round thread) (times : Nat) :
    toMake times thread' = toMake times thread := by
  unfold toMake
  rw [h]

theorem made_congr {thread thread' : Thread Client (Method Product)}
    (h : round thread' = round thread) (task : Nat) : made task thread' = made task thread := by
  unfold made
  rw [h]

theorem ofTask_congr {thread thread' : Thread Client (Method Product)}
    (h : round thread' = round thread) (task : Nat) : ofTask task thread' = ofTask task thread := by
  unfold ofTask
  rw [h]

/-- A thread that stays in its round, or a signal, changes nothing but where
    threads are. -/
theorem Market.Inv.move (h : s.Inv factories times) {th choice : Nat} {signal : Signal}
    {thread thread' : Thread Client (Method Product)}
    {woken : List (Thread Client (Method Product))} {shared : Store Product}
    (henqueued : shared.enqueued = s.shared.enqueued) (hsent : Sent s.threads choice signal woken)
    (hthread : woken[th]? = some thread) (hround : round thread' = round thread)
    (hend : ∀ p, round thread = some p → p.price < times) :
    Market.Inv factories times { shared := shared, threads := woken.set th thread' } := by
  have htally (f : Thread Client (Method Product) → Nat)
      (hf : ∀ a b, round a = round b → f a = f b) : tally f (woken.set th thread') =
        tally f s.threads := by
    have hset := tally_set f thread' hthread
    have hwake := hsent.tally_eq (fun a => hf a.wake a (round_wake a))
    have hsame := hf thread' thread hround
    omega
  refine ⟨fun a ha p hp => ?_, fun task => ?_, fun task => ?_, ?_⟩
  · rcases List.mem_or_eq_of_mem_set ha with ha | rfl
    · exact hsent.forall (fun a ha => ha.wake) h.rounds a ha p hp
    · have hlt := hend p (hround ▸ hp)
      exact ⟨Nat.le_of_lt hlt, fun heq => absurd heq (Nat.ne_of_lt hlt)⟩
  · rw [htally _ (fun a b hab => ofTask_congr hab task), h.one task]
  · change shared.enqueued.filter _ = _
    rw [henqueued, htally _ (fun a b hab => made_congr hab task), h.inOrder task]
  · change shared.enqueued.length + tally (toMake times) (woken.set th thread') = _
    rw [henqueued, htally _ (fun a b hab => toMake_congr hab times)]
    exact h.all

/-- The thread of a task is the only one that has put products of the task
    into the store. -/
theorem Market.Inv.made_eq (h : s.Inv factories times) {th : Nat}
    {thread : Thread Client (Method Product)} {p : Product} (hthread : s.threads[th]? = some thread)
    (hround : round thread = some p) : tally (made p.task) s.threads = p.price := by
  have hone : ofTask p.task thread = 1 := by
    unfold ofTask
    rw [hround]
    exact if_pos rfl
  have hle : tally (ofTask p.task) s.threads ≤ 1 := by
    rw [h.one]
    split <;> omega
  rw [tally_eq_of_tally_le_one hthread hle hone (fun b hb => ?_)]
  · unfold OwnConsumerPublisher.made
    rw [hround]
    exact if_pos rfl
  · unfold ofTask at hb
    unfold OwnConsumerPublisher.made
    cases hb' : round b with
    | none => rfl
    | some q =>
        rw [hb'] at hb
        simp only at hb ⊢
        by_cases hq : q.task = p.task
        · rw [if_pos hq] at hb
          cases hb
        · rw [if_neg hq]

/-- A factory puts a product into the store. -/
theorem Market.Inv.enqueue (h : s.Inv factories times) {th choice : Nat} {entry : Entry}
    {thread : Thread Client (Method Product)} {woken : List (Thread Client (Method Product))}
    {p : Product} {shared : Store Product} (henqueued : shared.enqueued = s.shared.enqueued ++ [p])
    (hsent : Sent s.threads choice .pulse woken) (hthread : s.threads[th]? = some thread)
    (hturn : thread.turn = some (.purchaseProduct p, entry)) :
    Market.Inv factories times
      { shared := shared
        threads := woken.set th (.outside (.createProduct p.task (p.price + 1))) } := by
  have hround := round_of_turn hturn
  -- Whoever is woken, the thread that calls `PurchaseProduct` is not.
  have hwoken := hsent.getElem? hthread (isWaiting_of_turn hturn)
  -- A thread inside `PurchaseProduct` has not come to the end of its rounds.
  have hlt : p.price < times := by
    rcases h.rounds thread (List.mem_of_getElem? hthread) p hround with ⟨hle, houtside⟩
    refine Nat.lt_of_le_of_ne hle (fun heq => ?_)
    rw [houtside heq] at hturn
    cases hturn
  have hprice := h.made_eq hthread hround
  -- Waking changes no round, so a count by rounds changes at this thread only.
  have htally (f : Thread Client (Method Product) → Nat)
      (hf : ∀ a b, round a = round b → f a = f b) :
      tally f (woken.set th (.outside (.createProduct p.task (p.price + 1)))) + f thread =
        tally f s.threads + f (.outside (.createProduct p.task (p.price + 1))) := by
    rw [tally_set f _ hwoken, hsent.tally_eq (fun a => hf a.wake a (round_wake a))]
  refine ⟨fun a ha q hq => ?_, fun task => ?_, fun task => ?_, ?_⟩
  -- The round that begins is at most the last one, and outside of the store.
  · rcases List.mem_or_eq_of_mem_set ha with ha | rfl
    · exact hsent.forall (fun a ha => ha.wake) h.rounds a ha q hq
    · cases hq
      exact ⟨hlt, fun heq => by rw [← heq]⟩
  -- The thread is still the one of its task.
  · have hset := htally _ (fun a b hab => ofTask_congr hab task)
    have hsame : ofTask task (.outside (.createProduct p.task (p.price + 1))) =
        ofTask task thread := by
      unfold ofTask
      rw [hround]
      rfl
    rw [← h.one task]
    exact Nat.add_right_cancel (hset.trans (congrArg _ hsame))
  -- The queue has got the product that comes next in the order of its task.
  · have hset := htally _ (fun a b hab => made_congr hab task)
    have hbefore := h.inOrder task
    change shared.enqueued.filter _ = _
    rw [henqueued, List.filter_append, hbefore]
    by_cases htask : p.task = task
    · subst htask
      have hthread' : made p.task thread = p.price := by
        unfold OwnConsumerPublisher.made
        rw [hround]
        exact if_pos rfl
      have hnext : made p.task
          (.outside (.createProduct p.task (p.price + 1))) = p.price + 1 := if_pos rfl
      rw [hthread', hnext, hprice] at hset
      rw [hprice, Nat.add_right_cancel (hset.trans (Nat.add_comm _ _)), List.range_succ,
        List.map_append, List.filter_cons_of_pos (by simp), List.filter_nil]
      rfl
    -- Nothing changes for the other tasks.
    · have hthread' : made task thread = 0 := by
        unfold OwnConsumerPublisher.made
        rw [hround]
        exact if_neg htask
      have hnext : made task
          (.outside (.createProduct p.task (p.price + 1))) = 0 := if_neg htask
      rw [hthread', hnext] at hset
      rw [List.filter_cons_of_neg (by simpa using htask), List.filter_nil, List.append_nil]
      exact congrArg (fun n => (List.range n).map (Product.mk task)) hset.symm
  -- One product more is in the queue, and one less is to be made.
  · have hset := htally _ (fun a b hab => toMake_congr hab times)
    have hbefore := h.all
    have hthread' : toMake times thread = times - p.price := by
      unfold toMake
      rw [hround]
    have hnext : toMake times (.outside (.createProduct p.task (p.price + 1))) =
        times - (p.price + 1) := rfl
    unfold Market.remaining at hbefore ⊢
    change shared.enqueued.length + _ = _
    rw [henqueued, List.length_append, List.length_singleton]
    change _ + tally _ (woken.set th (.outside (.createProduct p.task (p.price + 1)))) = _
    omega

/-- A factory in line has not made all of its products. -/
theorem InRound.lt_of_turn {thread : Thread Client (Method Product)} {p : Product} {entry : Entry}
    (h : InRound times thread) (hturn : thread.turn = some (.purchaseProduct p, entry)) :
    p.price < times := by
  rcases h p (round_of_turn hturn) with ⟨hle, houtside⟩
  refine Nat.lt_of_le_of_ne hle (fun heq => ?_)
  rw [houtside heq] at hturn
  cases hturn

theorem Market.Inv.goes (h : s.Inv factories times) (hgoes : Goes times s t) :
    t.Inv factories times := by
  cases hgoes with
  | createProduct th task i hthread hi =>
      -- The round is within bounds since `calls` has tested it.
      refine h.move rfl (.silent : Sent s.threads th _ _) hthread rfl (fun p hp => ?_)
      cases hp
      exact hi
  | buy th hthread => exact h.move rfl (.silent : Sent s.threads th _ _) hthread rfl nofun
  | full th thread p entry hthread hturn hfull =>
      have hround := round_of_turn hturn
      -- The same round goes on after the wait.
      refine h.move rfl (.silent : Sent s.threads th _ _) hthread hround.symm (fun q hq => ?_)
      rw [hround, Option.some.injEq] at hq
      rw [← hq]
      exact (h.rounds thread (List.mem_of_getElem? hthread)).lt_of_turn hturn
  | enqueue th choice thread p entry woken hthread hturn hfull hsent =>
      exact h.enqueue rfl hsent hthread hturn
  | giveUp th hthread => exact h.move rfl (.silent : Sent s.threads th _ _) hthread rfl nofun
  | empty th thread entry hthread hturn hentry hqueue =>
      have hround := round_of_turn_sell hturn
      refine h.move rfl (.silent : Sent s.threads th _ _) hthread hround.symm (fun p hp => ?_)
      rw [hround] at hp
      cases hp
  | dequeue th thread entry p rest hthread hturn hentry hqueue =>
      have hround := round_of_turn_sell hturn
      have hsent : Sent s.threads th .pulseAll (s.threads.map Thread.wake) := .pulseAll
      refine h.move rfl hsent (hsent.getElem? hthread (isWaiting_of_turn hturn)) hround.symm
        (fun p hp => ?_)
      rw [hround] at hp
      cases hp
  | expire th hthread => exact h.move rfl (.silent : Sent s.threads th _ _) hthread rfl nofun

theorem opening_inv : (opening maxInStock customers factories).Inv factories times := by
  have hcustomers (f : Thread Client (Method Product) → Nat) (hf : f (.outside .buy) = 0) :
      tally f (List.replicate customers (.outside .buy)) = 0 :=
    tally_eq_zero (fun a ha => by rw [List.eq_of_mem_replicate ha, hf])
  -- The customers count for nothing. The factories are counted by induction.
  refine ⟨fun thread hthread p hp => ?_, fun task => ?_, fun task => ?_, ?_⟩
  · rcases List.mem_append.mp hthread with hthread | hthread
    · rw [List.eq_of_mem_replicate hthread] at hp
      cases hp
    · rcases List.mem_map.mp hthread with ⟨task, -, rfl⟩
      cases hp
      exact ⟨Nat.zero_le times, fun heq => by rw [← heq]⟩
  · unfold opening
    rw [tally_append, hcustomers _ rfl, Nat.zero_add]
    induction factories with
    | zero => rfl
    | succ n ih =>
        rw [List.range_succ, List.map_append, tally_append, ih]
        change _ + ((if n = task then 1 else 0) + 0) = _
        split <;> split <;> split <;> omega
  -- Nothing has been made, and nothing is in the queue.
  · have hnone : tally (made task) (opening maxInStock customers factories).threads = 0 := by
      refine tally_eq_zero (fun thread hthread => ?_)
      rcases List.mem_append.mp hthread with hthread | hthread
      · rw [List.eq_of_mem_replicate hthread]
        rfl
      · rcases List.mem_map.mp hthread with ⟨task', -, rfl⟩
        change (if task' = task then 0 else 0) = 0
        split <;> rfl
    rw [hnone]
    rfl
  · unfold opening Market.remaining
    rw [tally_append, hcustomers _ rfl, Nat.zero_add]
    change 0 + _ = _
    induction factories with
    | zero => rw [Nat.zero_mul]; rfl
    | succ n ih =>
        rw [List.range_succ, List.map_append, tally_append, ← Nat.add_assoc, ih, Nat.succ_mul]
        rfl

theorem reachable_inv (h : (main maxInStock customers factories times).Reachable s) :
    s.Inv factories times := by
  refine h.invariant (Market.Inv factories times)
    (fun s (hs : s = opening maxInStock customers factories) => by rw [hs]; exact opening_inv) ?_
  intro s a t hs hst
  exact hs.goes (goes_of_step hst)

/-- What holds of a store whoever calls it. -/
theorem reachable_sound (hmax : 1 ≤ maxInStock)
    (h : (main maxInStock customers factories times).Reachable s) :
    s.shared.maxInStock = maxInStock ∧ s.shared.productQueue.length ≤ maxInStock ∧
    s.shared.sold ++ s.shared.productQueue = s.shared.enqueued ∧
    (0 < s.waiting Method.sells → s.shared.productQueue.length ≤ s.pulsed Method.sells) ∧
    (0 < s.waiting Method.purchases → maxInStock ≤ s.shared.productQueue.length) := by
  have hinit : ∀ s : Market, s = opening maxInStock customers factories →
      s.shared = Store.new maxInStock ∧ ∀ thread ∈ s.threads, ∃ o, thread = .outside o := by
    rintro s rfl
    refine ⟨rfl, fun thread hthread => ?_⟩
    rcases List.mem_append.mp hthread with hthread | hthread
    · exact ⟨.buy, List.eq_of_mem_replicate hthread⟩
    · rcases List.mem_map.mp hthread with ⟨task, -, rfl⟩
      exact ⟨.createProduct task 0, rfl⟩
  rcases callers_refines (P := program) (o := .uncalled) (fun _ _ => rfl) hinit h with
    ⟨t, ht, hshared, halike⟩
  have hsound := sound hmax ht
  have hwaiting (p : Method Product → Bool) : s.waiting p = t.waiting p :=
    Alike.waiting_eq halike p
  have hpulsed (p : Method Product → Bool) : s.pulsed p = t.pulsed p := Alike.pulsed_eq halike p
  rw [hshared, hwaiting, hwaiting, hpulsed]
  exact ⟨hsound.max, hsound.bound, hsound.fifo, hsound.sellers, hsound.purchasers⟩

end Invariant

/-! ### The end -/

/-- A customer is still in the store, or there is room for all products that
    are to come. -/
def Market.CanEnd (times : Nat) (s : Market) : Prop :=
  (∃ thread ∈ s.threads, shops thread = true) ∨
    ((s.shared.productQueue.length + s.remaining times : Nat) : Int) ≤ s.shared.maxInStock

/-- How far a thread is from its end, or from its next call. -/
def stage : Thread Client (Method Product) → Nat
  | .outside .left => 0
  | .outside .buy => 4
  | .outside (.createProduct _ _) => 3
  | .entering .sell => 3
  | .waiting .sell => 2
  | .ready .sell true => 3
  | .ready .sell false => 1
  | .entering (.purchaseProduct _) => 2
  | .waiting (.purchaseProduct _) => 2
  | .ready (.purchaseProduct _) _ => 2

/-- How far a market is from its end: a product that is to be sold or to be
    made outweighs all threads. -/
def Market.potential (times : Nat) (s : Market) : Nat :=
  (s.threads.length + 3) * (s.shared.productQueue.length + 2 * s.remaining times) +
    tally stage s.threads

theorem stage_wake_le (thread : Thread Client (Method Product)) :
    stage thread.wake ≤ stage thread + 1 := by
  cases thread with
  | waiting k =>
      cases k with
      | purchaseProduct p => exact Nat.le_succ 2
      | sell => exact Nat.le_refl 3
  | outside o => exact Nat.le_succ _
  | entering k => exact Nat.le_succ _
  | ready k pulsed => exact Nat.le_succ _

theorem shops_wake (thread : Thread Client (Method Product)) :
    shops thread.wake = shops thread := by
  cases thread with
  | waiting k => cases k <;> rfl
  | outside o => rfl
  | entering k => rfl
  | ready k pulsed => rfl

/-- Counts the customers that are still in the store. -/
def customer (thread : Thread Client (Method Product)) : Nat :=
  (shops thread).toNat

theorem exists_shops_iff (l : List (Thread Client (Method Product))) :
    (∃ thread ∈ l, shops thread = true) ↔ 0 < tally customer l := by
  rw [tally_pos_iff]
  refine exists_congr (fun thread => and_congr_right (fun _ => ?_))
  unfold customer
  cases shops thread <;> decide

/-- What one thread does, and whom it wakes, does not send others away. -/
theorem tally_customer {s : Market} {th choice : Nat} {signal : Signal}
    {thread : Thread Client (Method Product)} {woken : List (Thread Client (Method Product))}
    (thread' : Thread Client (Method Product)) (hsent : Sent s.threads choice signal woken)
    (hthread : woken[th]? = some thread) :
    tally customer (woken.set th thread') + customer thread =
      tally customer s.threads + customer thread' := by
  have hwake := hsent.tally_eq (f := customer) (fun a => congrArg Bool.toNat (shops_wake a))
  rw [tally_set customer thread' hthread]
  exact congrArg (· + customer thread') hwake

section End

variable {maxInStock : Int} {customers factories times : Nat} {s t : Market}

/-- A thread that stays in its round. -/
theorem remaining_setThread {th : Nat} {thread thread' : Thread Client (Method Product)}
    (hthread : s.threads[th]? = some thread) (hround : round thread' = round thread) :
    Market.remaining times (s.setThread th thread') = s.remaining times := by
  have hset := tally_set (toMake times) thread' hthread
  have hsame := toMake_congr hround times
  unfold Market.remaining
  change tally (toMake times) (s.threads.set th thread') = _
  omega

theorem potential_setThread {th : Nat} {thread thread' : Thread Client (Method Product)}
    (hthread : s.threads[th]? = some thread) (hround : round thread' = round thread)
    (hstage : stage thread' < stage thread) :
    Market.potential times (s.setThread th thread') < s.potential times := by
  have hset := tally_set stage thread' hthread
  unfold Market.potential
  rw [remaining_setThread hthread hround]
  change ((s.threads.set th thread').length + 3) * _ + tally stage (s.threads.set th thread') < _
  rw [List.length_set]
  exact Nat.add_lt_add_left (by omega) _

/-- A product that is put into the store, or taken out of it, is nearer to its
    end. -/
theorem potential_lt {n x x' y y' : Nat} (hx : x' + 1 = x) (hy : y' ≤ y + n + 2) :
    (n + 3) * x' + y' < (n + 3) * x + y := by
  rw [← hx, Nat.mul_succ]
  omega

theorem potential_enqueue {th choice : Nat} {thread : Thread Client (Method Product)} {p : Product}
    {entry : Entry} {woken : List (Thread Client (Method Product))} {shared : Store Product}
    (hthread : s.threads[th]? = some thread)
    (hturn : thread.turn = some (.purchaseProduct p, entry)) (hlt : p.price < times)
    (hsent : Sent s.threads choice .pulse woken)
    (hqueue : shared.productQueue.length = s.shared.productQueue.length + 1) :
    Market.potential times
        { shared := shared
          threads := woken.set th (.outside (.createProduct p.task (p.price + 1))) } <
      s.potential times ∧
    Market.remaining times
        { shared := shared
          threads := woken.set th (.outside (.createProduct p.task (p.price + 1))) } + 1 =
      s.remaining times := by
  have hwoken := hsent.getElem? hthread (isWaiting_of_turn hturn)
  -- One product less is to be made. That outweighs the stages, which may rise by
  -- one for the thread and by one for the thread that is woken.
  have hmake := tally_set (toMake times) (.outside (.createProduct p.task (p.price + 1))) hwoken
  have hstage := tally_set stage (.outside (.createProduct p.task (p.price + 1))) hwoken
  rw [hsent.tally_eq (fun a => toMake_congr (round_wake a) times)] at hmake
  have hpulse := hsent.pulse_tally_le stage_wake_le
  have hthread' : toMake times thread = times - p.price := by
    unfold toMake
    rw [round_of_turn hturn]
  have hnext : toMake times (.outside (.createProduct p.task (p.price + 1))) =
      times - (p.price + 1) := rfl
  have hthree : stage (.outside (.createProduct p.task (p.price + 1))) = 3 := rfl
  -- It is inside the monitor, entered or woken.
  have htwo : stage thread = 2 := by
    cases thread with
    | outside o => cases hturn
    | waiting k => cases hturn
    | entering k =>
        cases hturn
        rfl
    | ready k pulsed =>
        cases hturn
        rfl
  have hless : tally (toMake times)
      (woken.set th (.outside (.createProduct p.task (p.price + 1)))) + 1 =
        tally (toMake times) s.threads := by
    omega
  refine ⟨?_, hless⟩
  unfold Market.potential Market.remaining
  simp only
  rw [List.length_set, hsent.length_eq, hqueue]
  exact potential_lt (by omega) (by omega)

theorem potential_dequeue {th : Nat} {thread : Thread Client (Method Product)} {entry : Entry}
    {shared : Store Product} (hthread : s.threads[th]? = some thread)
    (hturn : thread.turn = some (.sell, entry)) (hentry : entry ≠ .resumes false)
    (hqueue : shared.productQueue.length + 1 = s.shared.productQueue.length) :
    Market.potential times
        { shared := shared, threads := (s.threads.map Thread.wake).set th (.outside .buy) } <
      s.potential times ∧
    Market.remaining times
        { shared := shared, threads := (s.threads.map Thread.wake).set th (.outside .buy) } =
      s.remaining times := by
  have hsent : Sent s.threads th .pulseAll (s.threads.map Thread.wake) := .pulseAll
  have hwoken := hsent.getElem? hthread (isWaiting_of_turn hturn)
  -- One product less is in the queue. That outweighs the stages, which may rise
  -- by one for every thread.
  have hmake := tally_set (toMake times) (.outside .buy) hwoken
  have hstage := tally_set stage (.outside .buy) hwoken
  rw [hsent.tally_eq (fun a => toMake_congr (round_wake a) times)] at hmake
  have hwake := tally_wake_le stage_wake_le s.threads
  have hthread' : toMake times thread = 0 := by
    unfold toMake
    rw [round_of_turn_sell hturn]
  have hnext : toMake times (.outside .buy) = 0 := rfl
  have hfour : stage (.outside .buy) = 4 := rfl
  have hthree : stage thread = 3 := by
    cases thread with
    | outside o => cases hturn
    | waiting k => cases hturn
    | entering k =>
        cases hturn
        rfl
    | ready k pulsed =>
        cases hturn
        cases pulsed with
        | false => exact absurd rfl hentry
        | true => rfl
  have hsame : tally (toMake times) ((s.threads.map Thread.wake).set th (.outside .buy)) =
      tally (toMake times) s.threads := by
    omega
  refine ⟨?_, hsame⟩
  unfold Market.potential Market.remaining
  simp only
  rw [List.length_set, List.length_map, hsame]
  exact potential_lt (by omega) (by omega)

/-- A customer that has not waited in vain can go on, if the store is not
    empty. -/
theorem exists_sell (hmax : 1 ≤ maxInStock)
    (h : (main maxInStock customers factories times).Reachable s)
    (hshops : ∃ thread ∈ s.threads, shops thread = true)
    (hstock : 0 < s.shared.productQueue.length) :
    ∃ t, Goes times s t ∧ t.CanEnd times ∧ t.potential times < s.potential times := by
  rcases reachable_sound hmax h with ⟨-, -, -, hsellers, -⟩
  have hdequeue : ∀ (th : Nat) (thread : Thread Client (Method Product)) (entry : Entry),
      s.threads[th]? = some thread → thread.turn = some (.sell, entry) →
      entry ≠ .resumes false →
      ∃ t, Goes times s t ∧ t.CanEnd times ∧ t.potential times < s.potential times := by
    intro th thread entry hthread hturn hentry
    cases hqueue : s.shared.productQueue with
    | nil =>
        rw [hqueue] at hstock
        cases hstock
    | cons p rest =>
        refine ⟨_, .dequeue th thread entry p rest hthread hturn hentry hqueue, .inl ?_,
          (potential_dequeue hthread hturn hentry (by rw [hqueue]; rfl)).1⟩
        have hlt : th < (s.threads.map Thread.wake).length := by
          rw [List.length_map]
          exact (List.getElem?_eq_some_iff.mp hthread).1
        exact ⟨.outside .buy, List.mem_of_getElem? (List.getElem?_set_self hlt), rfl⟩
  rcases hshops with ⟨thread, hmem, hshops⟩
  rcases List.getElem?_of_mem hmem with ⟨th, hthread⟩
  have hlt := (List.getElem?_eq_some_iff.mp hthread).1
  cases thread with
  | outside o =>
      cases o with
      | createProduct task i => cases hshops
      | left => cases hshops
      | buy =>
          exact ⟨_, .buy th hthread, .inl ⟨.entering .sell,
            List.mem_of_getElem? (List.getElem?_set_self hlt), rfl⟩,
            potential_setThread hthread rfl (Nat.lt_succ_self 3)⟩
  | entering k =>
      cases k with
      | purchaseProduct p => cases hshops
      | sell => exact hdequeue th _ .enters hthread rfl nofun
  | waiting k =>
      cases k with
      | purchaseProduct p => cases hshops
      | sell =>
          -- Another one has been pulsed for each product.
          have hwaits : 0 < s.waiting Method.sells :=
            (tally_pos_iff _ _).mpr ⟨_, hmem, Nat.one_pos⟩
          have hpulsed : 0 < s.pulsed Method.sells := Nat.lt_of_lt_of_le hstock (hsellers hwaits)
          rcases (tally_pos_iff _ _).mp hpulsed with ⟨other, hother, hweight⟩
          rcases List.getElem?_of_mem hother with ⟨j, hj⟩
          cases other with
          | outside o => cases hweight
          | entering k => cases hweight
          | waiting k => cases hweight
          | ready k pulsed =>
              cases pulsed with
              | false => cases hweight
              | true =>
                  cases k with
                  | purchaseProduct p => cases hweight
                  | sell => exact hdequeue j _ (.resumes true) hj rfl nofun
  | ready k pulsed =>
      cases k with
      | purchaseProduct p => cases hshops
      | sell =>
          cases pulsed with
          | false => cases hshops
          | true => exact hdequeue th _ (.resumes true) hthread rfl nofun

/-- A customer that stays, or room for all that is to come, lets all tasks end
    after a step of another thread. -/
theorem Market.CanEnd.move (hcan : s.CanEnd times) {th choice : Nat} {signal : Signal}
    {thread thread' : Thread Client (Method Product)}
    {woken : List (Thread Client (Method Product))} {shared : Store Product}
    (hsent : Sent s.threads choice signal woken) (hthread : woken[th]? = some thread)
    (hshops : shops thread = false) (hmax : shared.maxInStock = s.shared.maxInStock)
    (hstock : shared.productQueue.length +
        Market.remaining times { shared := shared, threads := woken.set th thread' } =
      s.shared.productQueue.length + s.remaining times) :
    Market.CanEnd times { shared := shared, threads := woken.set th thread' } := by
  rcases hcan with hstays | hfits
  · left
    have hcustomer := tally_customer thread' hsent hthread
    have hnone : customer thread = 0 := congrArg Bool.toNat hshops
    rw [exists_shops_iff] at hstays ⊢
    change 0 < tally customer (woken.set th thread')
    omega
  · right
    change ((shared.productQueue.length + _ : Nat) : Int) ≤ shared.maxInStock
    rw [hstock, hmax]
    exact hfits

theorem shops_of_turn {thread : Thread Client (Method Product)} {p : Product} {entry : Entry}
    (h : thread.turn = some (.purchaseProduct p, entry)) : shops thread = false := by
  cases thread with
  | outside o => cases h
  | waiting k => cases h
  | entering k =>
      cases h
      rfl
  | ready k pulsed =>
      cases h
      cases pulsed <;> rfl

theorem shops_of_turn_sell {thread : Thread Client (Method Product)} {entry : Entry}
    (h : thread.turn = some (.sell, entry)) (hentry : entry ≠ .resumes false) :
    shops thread = true := by
  cases thread with
  | outside o => cases h
  | waiting k => cases h
  | entering k =>
      cases h
      rfl
  | ready k pulsed =>
      cases h
      cases pulsed with
      | false => exact absurd rfl hentry
      | true => rfl

/-- A factory can go on, if there is room. -/
theorem exists_create (hmax : 1 ≤ maxInStock)
    (h : (main maxInStock customers factories times).Reachable s) (hcan : s.CanEnd times)
    (hremaining : 0 < s.remaining times)
    (hroom : ¬ s.shared.maxInStock ≤ s.shared.productQueue.length) :
    ∃ t, Goes times s t ∧ t.CanEnd times ∧ t.potential times < s.potential times := by
  rcases reachable_sound hmax h with ⟨hmaxInStock, -, -, -, hpurchasers⟩
  have hinv := reachable_inv h
  -- Some factory has something left to make. It is about to call, or in the call.
  rcases (tally_pos_iff _ _).mp hremaining with ⟨thread, hmem, hweight⟩
  rcases List.getElem?_of_mem hmem with ⟨th, hthread⟩
  have henqueue : ∀ (p : Product) (entry : Entry), thread.turn = some (.purchaseProduct p, entry) →
      ∃ t, Goes times s t ∧ t.CanEnd times ∧ t.potential times < s.potential times := by
    intro p entry hturn
    have hlt := (hinv.rounds thread hmem).lt_of_turn hturn
    -- The store has room, so the product goes in and someone is woken, if anyone
    -- waits.
    rcases exists_send .pulse s.threads with ⟨choice, woken, hsend⟩
    have hsent := send_sent hsend
    have hqueue : ({ s.shared with
        productQueue := s.shared.productQueue ++ [p]
        enqueued := s.shared.enqueued ++ [p] } : Store Product).productQueue.length =
          s.shared.productQueue.length + 1 := List.length_append
    rcases potential_enqueue hthread hturn hlt hsent hqueue with ⟨hless, hleft⟩
    refine ⟨_, .enqueue th choice thread p entry woken hthread hturn hroom hsent, ?_, hless⟩
    refine hcan.move hsent (hsent.getElem? hthread (isWaiting_of_turn hturn))
      (shops_of_turn hturn) rfl ?_
    rw [hqueue]
    omega
  cases thread with
  | outside o =>
      cases o with
      | left => cases hweight
      | buy => cases hweight
      | createProduct task i =>
          have hi : i < times := Nat.lt_of_sub_pos hweight
          refine ⟨_, .createProduct th task i hthread hi, ?_,
            potential_setThread hthread rfl (Nat.lt_succ_self 2)⟩
          exact hcan.move (.silent : Sent s.threads th _ _) hthread rfl rfl
            (congrArg _ (remaining_setThread hthread rfl))
  | entering k =>
      cases k with
      | purchaseProduct p => exact henqueue p .enters rfl
      | sell => cases hweight
  | ready k pulsed =>
      cases k with
      | purchaseProduct p => exact henqueue p (.resumes pulsed) rfl
      | sell => cases hweight
  | waiting k =>
      cases k with
      | sell => cases hweight
      | purchaseProduct p =>
          -- A factory waits only while the store is full.
          have hwaits : 0 < s.waiting Method.purchases :=
            (tally_pos_iff _ _).mpr ⟨_, hmem, Nat.one_pos⟩
          exact absurd (hmaxInStock ▸ hpurchasers hwaits) hroom

/-- When all products have been made, a factory in a round is behind its
    last. -/
theorem ended_of_round (hinv : s.Inv factories times) (hremaining : s.remaining times = 0)
    {thread : Thread Client (Method Product)} (hmem : thread ∈ s.threads) {p : Product}
    (hround : round thread = some p) : Ended times thread := by
  rcases hinv.rounds thread hmem p hround with ⟨hle, houtside⟩
  have hmake : toMake times thread = 0 :=
    Nat.eq_zero_of_le_zero (hremaining ▸ le_tally (toMake times) hmem)
  unfold toMake at hmake
  rw [hround] at hmake
  exact .inr ⟨p.task, houtside (Nat.le_antisymm hle (Nat.le_of_sub_eq_zero hmake))⟩

/-- When all products have been made, a customer goes on. -/
theorem exists_leave (hmax : 1 ≤ maxInStock)
    (h : (main maxInStock customers factories times).Reachable s)
    (hremaining : s.remaining times = 0) {thread : Thread Client (Method Product)}
    (hmem : thread ∈ s.threads) (hended : ¬ Ended times thread) :
    ∃ t, Goes times s t ∧ t.CanEnd times ∧ t.potential times < s.potential times := by
  rcases reachable_sound hmax h with ⟨hmaxInStock, hbound, -, -, -⟩
  have hinv := reachable_inv h
  rcases List.getElem?_of_mem hmem with ⟨th, hthread⟩
  -- Nothing is left to be made, so who has not ended is a customer.
  have hnone : round thread = none := by
    cases hround : round thread with
    | none => rfl
    | some p => exact absurd (ended_of_round hinv hremaining hmem hround) hended
  -- A step that only the thread itself notices lowers its stage.
  have hstep : ∀ thread', round thread' = none → stage thread' < stage thread →
      Goes times s (s.setThread th thread') →
      ∃ t, Goes times s t ∧ t.CanEnd times ∧ t.potential times < s.potential times := by
    intro thread' hround hstage hgoes
    have hsame : round thread' = round thread := hround.trans hnone.symm
    refine ⟨_, hgoes, .inr ?_, potential_setThread hthread hsame hstage⟩
    rw [remaining_setThread hthread hsame, hremaining]
    exact hmaxInStock ▸ hbound
  -- What is left in the queue is sold first.
  have hsell : shops thread = true → (s.shared.productQueue = [] →
      ∃ t, Goes times s t ∧ t.CanEnd times ∧ t.potential times < s.potential times) →
      ∃ t, Goes times s t ∧ t.CanEnd times ∧ t.potential times < s.potential times := by
    intro hshops hempty
    rcases Nat.eq_zero_or_pos s.shared.productQueue.length with hzero | hpos
    · exact hempty (List.length_eq_zero_iff.mp hzero)
    · exact exists_sell hmax h ⟨thread, hmem, hshops⟩ hpos
  -- A customer who finds the queue empty waits, times out and leaves.
  cases thread with
  | outside o =>
      cases o with
      | createProduct task i => cases hnone
      | left => exact absurd (.inl rfl) hended
      | buy => exact hstep (.entering .sell) rfl (Nat.lt_succ_self 3) (.buy th hthread)
  | entering k =>
      cases k with
      | purchaseProduct p => cases hnone
      | sell =>
          exact hsell rfl (fun hqueue => hstep (.waiting .sell) rfl (Nat.lt_succ_self 2)
            (.empty th _ .enters hthread rfl nofun hqueue))
  | waiting k =>
      cases k with
      | purchaseProduct p => cases hnone
      | sell => exact hstep (.ready .sell false) rfl (Nat.lt_succ_self 1) (.expire th hthread)
  | ready k pulsed =>
      cases k with
      | purchaseProduct p => cases hnone
      | sell =>
          cases pulsed with
          | false => exact hstep (.outside .left) rfl Nat.one_pos (.giveUp th hthread)
          | true =>
              exact hsell rfl (fun hqueue => hstep (.waiting .sell) rfl (Nat.lt_succ_self 2)
                (.empty th _ (.resumes true) hthread rfl nofun hqueue))

/-- Some step brings the end nearer. -/
theorem exists_nearer (hmax : 1 ≤ maxInStock)
    (h : (main maxInStock customers factories times).Reachable s) (hcan : s.CanEnd times)
    (hended : ¬ ∀ thread ∈ s.threads, Ended times thread) :
    ∃ t, Goes times s t ∧ t.CanEnd times ∧ t.potential times < s.potential times := by
  rcases reachable_sound hmax h with ⟨hmaxInStock, -, -, -, -⟩
  rcases Nat.eq_zero_or_pos (s.remaining times) with hremaining | hremaining
  · simp only [not_forall] at hended
    rcases hended with ⟨thread, hmem, hthread⟩
    exact exists_leave hmax h hremaining hmem hthread
  · by_cases hsell : (∃ thread ∈ s.threads, shops thread = true) ∧
        0 < s.shared.productQueue.length
    · exact exists_sell hmax h hsell.1 hsell.2
    · refine exists_create hmax h hcan hremaining (fun hfull => ?_)
      rcases hcan with hstays | hfits
      · have hempty := Nat.eq_zero_of_not_pos (fun hpos => hsell ⟨hstays, hpos⟩)
        rw [hempty, hmaxInStock] at hfull
        omega
      · omega

/-- Customers that have left do not come back. -/
theorem goes_customer_le (hgoes : Goes times s t) :
    tally customer t.threads ≤ tally customer s.threads := by
  -- The steps in which nobody else is woken.
  have hsilent : ∀ (th : Nat) (thread thread' : Thread Client (Method Product)),
      s.threads[th]? = some thread → customer thread' ≤ customer thread →
      tally customer (s.setThread th thread').threads ≤ tally customer s.threads := by
    intro th thread thread' hthread hle
    have hset := tally_set customer thread' hthread
    change tally customer (s.threads.set th thread') ≤ _
    omega
  cases hgoes with
  | createProduct th task i hthread hi => exact hsilent th _ _ hthread (Nat.le_refl 0)
  | buy th hthread => exact hsilent th _ _ hthread (Nat.le_refl 1)
  | full th thread p entry hthread hturn hfull => exact hsilent th _ _ hthread (Nat.zero_le _)
  | enqueue th choice thread p entry woken hthread hturn hfull hsent =>
      -- Who is woken by `Pulse` was waiting, and is a customer no more than before.
      have hset := tally_customer (.outside (.createProduct p.task (p.price + 1))) hsent
        (hsent.getElem? hthread (isWaiting_of_turn hturn))
      have hnone : customer (.outside (.createProduct p.task (p.price + 1))) = 0 := rfl
      change tally customer (woken.set th _) ≤ _
      omega
  | giveUp th hthread => exact hsilent th _ _ hthread (Nat.le_refl 0)
  | empty th thread entry hthread hturn hentry hqueue =>
      refine hsilent th _ _ hthread (Nat.le_of_eq ?_)
      exact (congrArg Bool.toNat (shops_of_turn_sell hturn hentry)).symm
  | dequeue th thread entry p rest hthread hturn hentry hqueue =>
      have hsent : Sent s.threads th .pulseAll (s.threads.map Thread.wake) := .pulseAll
      have hset := tally_customer (.outside .buy) hsent
        (hsent.getElem? hthread (isWaiting_of_turn hturn))
      have hone : customer (.outside .buy) = 1 := rfl
      -- It was a customer already.
      have hone' : customer thread = 1 := congrArg Bool.toNat (shops_of_turn_sell hturn hentry)
      change tally customer ((s.threads.map Thread.wake).set th _) ≤ _
      omega
  | expire th hthread => exact hsilent th _ _ hthread (Nat.zero_le _)

/-- Once it cannot end, it never can: there is nobody to make room. -/
theorem not_canEnd_goes (hmax : 1 ≤ maxInStock)
    (h : (main maxInStock customers factories times).Reachable s) (hnot : ¬ s.CanEnd times)
    (hgoes : Goes times s t) : ¬ t.CanEnd times := by
  have hle := goes_customer_le hgoes
  have ht := System.Reachable.step s _ t h (step_of_goes hgoes).choose_spec
  have hs := reachable_sound hmax h
  have ht' := reachable_sound hmax ht
  have hall := (reachable_inv h).all
  have hall' := (reachable_inv ht).all
  -- No customer is left, and none comes back.
  have hzero : tally customer s.threads = 0 := Nat.eq_zero_of_not_pos
    (fun hpos => hnot (.inl ((exists_shops_iff s.threads).mpr hpos)))
  rintro (hstays | hfits)
  · have hpos := (exists_shops_iff t.threads).mp hstays
    omega
  · refine hnot (.inr ?_)
    -- So nothing more is sold, and what is made and what is to be made stay equal
    -- in sum, by the invariant before and after the step.
    have hsold : t.shared.sold = s.shared.sold := by
      cases hgoes with
      | dequeue th thread entry p rest hthread hturn hentry hqueue =>
          have hone := le_tally customer (List.mem_of_getElem? hthread)
          have hcustomer : customer thread = 1 :=
            congrArg Bool.toNat (shops_of_turn_sell hturn hentry)
          omega
      | createProduct => rfl
      | buy => rfl
      | full => rfl
      | enqueue => rfl
      | giveUp => rfl
      | empty => rfl
      | expire => rfl
    have hfifo := congrArg List.length hs.2.2.1
    have hfifo' := congrArg List.length ht'.2.2.1
    rw [List.length_append] at hfifo hfifo'
    rw [hsold] at hfifo'
    rw [hs.1]
    rw [ht'.1] at hfits
    omega

/-- When all tasks have ended, there is nothing to come, and nobody in the
    store. -/
theorem canEnd_of_ended (hmax : 1 ≤ maxInStock)
    (h : (main maxInStock customers factories times).Reachable s)
    (hended : ∀ thread ∈ s.threads, Ended times thread) : s.CanEnd times := by
  rcases reachable_sound hmax h with ⟨hmaxInStock, hbound, -, -, -⟩
  have hremaining : s.remaining times = 0 := by
    refine tally_eq_zero (fun thread hthread => ?_)
    rcases hended thread hthread with rfl | ⟨task, rfl⟩
    · rfl
    · exact Nat.sub_self times
  refine .inr ?_
  rw [hremaining, hmaxInStock]
  exact hbound

/-- The customers can leave before anything is there to be bought. -/
theorem customers_leave (maxInStock : Int) (customers factories times : Nat) :
    ∃ s, (main maxInStock customers factories times).Reachable s ∧
      s.shared = Store.new maxInStock ∧ ¬ ∃ thread ∈ s.threads, shops thread = true := by
  -- By the stages of the customers: no factory takes a step, so the store stays
  -- empty and every wait is in vain.
  have hnear : ∀ s : Market, s.shared = Store.new maxInStock →
      ¬ (s.shared = Store.new maxInStock ∧ ¬ ∃ thread ∈ s.threads, shops thread = true) →
      ∃ a t, (main maxInStock customers factories times).step s a t ∧
        t.shared = Store.new maxInStock ∧ tally stage t.threads < tally stage s.threads := by
    intro s hshared hstays
    rcases not_not.mp (fun hgone => hstays ⟨hshared, hgone⟩) with ⟨thread, hmem, hshops⟩
    rcases List.getElem?_of_mem hmem with ⟨th, hthread⟩
    have hqueue : s.shared.productQueue = [] := hshared ▸ rfl
    have hstep : ∀ thread', stage thread' < stage thread →
        Goes times s (s.setThread th thread') →
        ∃ a t, (main maxInStock customers factories times).step s a t ∧
          t.shared = Store.new maxInStock ∧ tally stage t.threads < tally stage s.threads := by
      intro thread' hstage hgoes
      rcases step_of_goes hgoes with ⟨a, ha⟩
      refine ⟨a, _, ha, hshared, ?_⟩
      have hset := tally_set stage thread' hthread
      change tally stage (s.threads.set th thread') < _
      omega
    cases thread with
    | outside o =>
        cases o with
        | createProduct task i => cases hshops
        | left => cases hshops
        | buy => exact hstep (.entering .sell) (Nat.lt_succ_self 3) (.buy th hthread)
    | entering k =>
        cases k with
        | purchaseProduct p => cases hshops
        | sell =>
            exact hstep (.waiting .sell) (Nat.lt_succ_self 2)
              (.empty th _ .enters hthread rfl nofun hqueue)
    | waiting k =>
        cases k with
        | purchaseProduct p => cases hshops
        | sell => exact hstep (.ready .sell false) (Nat.lt_succ_self 1) (.expire th hthread)
    | ready k pulsed =>
        cases k with
        | purchaseProduct p => cases hshops
        | sell =>
            cases pulsed with
            | false => cases hshops
            | true =>
                exact hstep (.waiting .sell) (Nat.lt_succ_self 2)
                  (.empty th _ (.resumes true) hthread rfl nofun hqueue)
  rcases System.finishes (fun s : Market => s.shared = Store.new maxInStock)
    (fun s => tally stage s.threads) _ hnear
    (rfl : (opening maxInStock customers factories).shared = Store.new maxInStock) with
    ⟨steps, s, hrun, hshared, hgone⟩
  exact ⟨s, hrun.reachable rfl, hshared, hgone⟩

/-- Tasks that cannot end any more are reached if the products of the
    factories are more than there is room for. -/
theorem hangs_iff (hmax : 1 ≤ maxInStock) :
    (∃ s, (main maxInStock customers factories times).Reachable s ∧ ¬ s.CanEnd times) ↔
      maxInStock < (factories * times : Nat) := by
  constructor
  · rintro ⟨s, h, hnot⟩
    have hs := reachable_sound hmax h
    have hall := (reachable_inv h).all
    have hfifo := congrArg List.length hs.2.2.1
    rw [List.length_append] at hfifo
    refine Int.not_le.mp (fun hle => hnot (.inr ?_))
    rw [hs.1]
    omega
  · intro hlt
    rcases customers_leave maxInStock customers factories times with ⟨s, h, hshared, hgone⟩
    refine ⟨s, h, ?_⟩
    have hall := (reachable_inv h).all
    rintro (hstays | hfits)
    · exact hgone hstays
    · rw [hshared] at hall hfits
      change 0 + _ = _ at hall
      change ((0 + _ : Nat) : Int) ≤ maxInStock at hfits
      omega

/-- All tasks of `Main` can end as long as a customer is still there, or the
    room suffices for what is to come; and a point where this is no longer so
    is reached if the factories make more than there is room for. -/
theorem main_ends_iff (hmax : 1 ≤ maxInStock) :
    (∀ s, (main maxInStock customers factories times).Reachable s →
      ((∃ steps t, (main maxInStock customers factories times).Run s steps t ∧
        ∀ thread ∈ t.threads, Ended times thread) ↔ s.CanEnd times)) ∧
    ((∃ s, (main maxInStock customers factories times).Reachable s ∧ ¬ s.CanEnd times) ↔
      maxInStock < (factories * times : Nat)) := by
  refine ⟨fun s h => ⟨?_, fun hcan => ?_⟩, hangs_iff hmax⟩
  · rintro ⟨steps, t, hrun, hended⟩
    by_contra hnot
    -- Once it cannot end, it never can.
    have hnever : ¬ t.CanEnd times := by
      have hboth : (main maxInStock customers factories times).Reachable t ∧
          ¬ t.CanEnd times := by
        clear hended
        induction hrun with
        | nil => exact ⟨h, hnot⟩
        | snoc steps s a t _ hstep ih =>
            exact ⟨.step s a t ih.1 hstep,
              not_canEnd_goes hmax ih.1 ih.2 (goes_of_step hstep)⟩
      exact hboth.2
    exact hnever (canEnd_of_ended hmax (hrun.reachable_of_reachable h) hended)
  · refine System.finishes
      (fun s => (main maxInStock customers factories times).Reachable s ∧ s.CanEnd times)
      (Market.potential times) (fun s => ∀ thread ∈ s.threads, Ended times thread) ?_ ⟨h, hcan⟩
    rintro s ⟨h, hcan⟩ hended
    -- By the potential, which some step lowers as long as it can end.
    rcases exists_nearer hmax h hcan hended with ⟨t, hgoes, hcan', hless⟩
    rcases step_of_goes hgoes with ⟨a, ha⟩
    exact ⟨a, t, ha, ⟨.step s a t h ha, hcan'⟩, hless⟩

/-- With the numbers of `Main`, three factories of a thousand products and room
    for five, the tasks can end to begin with, and need not. -/
theorem main_ends_iff_main :
    (1 : Int) ≤ 5 ∧ (opening 5 3 3).CanEnd 1000 ∧ ((∀ s, (main 5 3 3 1000).Reachable s →
      ((∃ steps t, (main 5 3 3 1000).Run s steps t ∧
        ∀ thread ∈ t.threads, Ended 1000 thread) ↔ s.CanEnd 1000)) ∧
    ((∃ s, (main 5 3 3 1000).Reachable s ∧ ¬ s.CanEnd 1000) ↔
      (5 : Int) < (3 * 1000 : Nat))) :=
  ⟨by decide, .inl ⟨.outside .buy, .head _, rfl⟩, main_ends_iff (by decide)⟩

/-- Each task of a factory has a thread. -/
theorem Market.Inv.exists_round (h : s.Inv factories times) {task : Nat}
    (htask : task < factories) :
    ∃ (th : Nat) (thread : Thread Client (Method Product)) (p : Product),
      s.threads[th]? = some thread ∧ round thread = some p ∧ p.task = task := by
  have hone := h.one task
  rw [if_pos htask] at hone
  rcases (tally_pos_iff _ _).mp (hone ▸ Nat.one_pos) with ⟨thread, hmem, hweight⟩
  rcases List.getElem?_of_mem hmem with ⟨th, hthread⟩
  unfold ofTask at hweight
  cases hround : round thread with
  | none =>
      rw [hround] at hweight
      cases hweight
  | some p =>
      rw [hround] at hweight
      refine ⟨th, thread, p, hthread, hround, by_contra (fun hne => ?_)⟩
      simp only [if_neg hne] at hweight
      cases hweight

/-- No task makes more products than it has rounds. -/
theorem Market.Inv.made_le (h : s.Inv factories times) (task : Nat) :
    tally (made task) s.threads ≤ times := by
  rcases Nat.eq_zero_or_pos (tally (made task) s.threads) with hzero | hpos
  · rw [hzero]
    exact Nat.zero_le times
  · rcases (tally_pos_iff _ _).mp hpos with ⟨thread, hmem, hweight⟩
    rcases List.getElem?_of_mem hmem with ⟨th, hthread⟩
    unfold OwnConsumerPublisher.made at hweight
    cases hround : round thread with
    | none =>
        rw [hround] at hweight
        cases hweight
    | some p =>
        rw [hround] at hweight
        have htask : p.task = task := by_contra (fun hne => by
          simp only [if_neg hne] at hweight
          cases hweight)
        rw [← htask, h.made_eq hthread hround]
        exact (h.rounds thread hmem p hround).1

/-- The products of a task are sold in the order in which it makes them, each
    once; and when all tasks have ended, each product of each factory has been
    sold or is in the store. -/
theorem sold_inOrder (hmax : 1 ≤ maxInStock)
    (h : (main maxInStock customers factories times).Reachable s) (task : Nat) :
    (s.shared.sold.filter (fun p => p.task = task) <+:
      (List.range times).map (Product.mk task)) ∧
    ((∀ thread ∈ s.threads, Ended times thread) → task < factories →
      (s.shared.sold ++ s.shared.productQueue).filter (fun p => p.task = task) =
        (List.range times).map (Product.mk task)) := by
  have hinv := reachable_inv h
  have hfifo := (reachable_sound hmax h).2.2.1
  have hmade := hinv.inOrder task
  constructor
  -- What is sold are the first of what was put in.
  · have hsold : s.shared.sold.filter (fun p => p.task = task) <+:
        s.shared.enqueued.filter (fun p => p.task = task) := by
      rw [← hfifo, List.filter_append]
      exact List.prefix_append _ _
    refine hsold.trans ?_
    rw [hmade]
    refine List.IsPrefix.map _ ?_
    rw [List.prefix_iff_eq_take, List.length_range, List.take_range, Nat.min_eq_left]
    exact hinv.made_le task
  · intro hended htask
    rcases hinv.exists_round htask with ⟨th, thread, p, hthread, hround, rfl⟩
    -- A task that has ended has made all of its products.
    have hprice : p.price = times := by
      rcases hended thread (List.mem_of_getElem? hthread) with rfl | ⟨task, rfl⟩
      · cases hround
      · cases hround
        rfl
    rw [hfifo, hmade, hinv.made_eq hthread hround, hprice]

/-- Two factories make two products each for a store with room for one, and a
    customer buys all of them and leaves. -/
theorem sold_inOrder_four :
    ∃ s, (main 1 1 2 2).Reachable s ∧
      s.shared.sold = [⟨0, 0⟩, ⟨1, 0⟩, ⟨0, 1⟩, ⟨1, 1⟩] ∧
      (s.shared.sold.filter (fun p => p.task = 1) <+: (List.range 2).map (Product.mk 1)) ∧
      (s.shared.sold ++ s.shared.productQueue).filter (fun p => p.task = 1) =
        (List.range 2).map (Product.mk 1) := by
  -- A factory waits while the store is full, and the customer waits in vain at last.
  rcases System.exists_exec (step (clients 2)) (opening 1 1 2)
    [.call 1 (.purchaseProduct ⟨0, 0⟩), .run 1 0, .call 2 (.purchaseProduct ⟨1, 0⟩), .run 2 0,
      .call 0 .sell, .run 0 0, .run 2 0, .call 1 (.purchaseProduct ⟨0, 1⟩), .run 1 0,
      .call 0 .sell, .run 0 0, .run 1 0, .call 0 .sell, .run 0 0,
      .call 2 (.purchaseProduct ⟨1, 1⟩), .run 2 0, .call 0 .sell, .run 0 0,
      .call 0 .sell, .run 0 0, .expire 0, .run 0 0]
    (fun s => decide (s.shared.sold = [⟨0, 0⟩, ⟨1, 0⟩, ⟨0, 1⟩, ⟨1, 1⟩] ∧
      s.threads = [.outside .left, .outside (.createProduct 0 2),
        .outside (.createProduct 1 2)])) (by decide +kernel) with ⟨s, hexec, hend⟩
  rcases of_decide_eq_true hend with ⟨hsold, hthreads⟩
  have h : (main 1 1 2 2).Reachable s :=
    System.reachable_of_exec _ _ _ (.init (opening 1 1 2) rfl) hexec
  have hended : ∀ thread ∈ s.threads, Ended 2 thread := by
    rw [hthreads]
    intro thread hthread
    rcases List.mem_cons.mp hthread with hleft | hthread
    · exact Or.inl hleft
    · rcases List.mem_cons.mp hthread with hzero | hone
      · exact Or.inr ⟨0, hzero⟩
      · exact Or.inr ⟨1, List.mem_singleton.mp hone⟩
  have hall := sold_inOrder (by decide) h 1
  exact ⟨s, h, hsold, hall.1, hall.2 hended (by decide)⟩

end End

end OwnConsumerPublisher

end BlogSample
