import BlogSample.Theory.MessageQueue
import BlogSample.Theory.Stdio
import BlogSample.Theory.Tally
import BlogSample.Theory.Transition
import Mathlib.Logic.Function.Basic

/-!
# Messages Both Ways

Programs that talk over one message queue. Each is started with a type under
which it sends and a type that it receives; after a `fork` the parent sends the
lines of its input, and the child prints what it receives, until a message
begins with `quit`. Then the child removes the queue and ends.

The types are two `long`s. One that is not positive is no type to send under,
and `msgsnd` fails; the other is cast to `int` before it is used. If `fork`
fails, neither branch is taken, and the program removes the queue at once.

The queue is everybody's. While it is there, what is received of a type is what
was sent under it, in order, whatever goes on under other types. When it is
removed, what was on its way is lost for all of them: the other children fail
to receive from then on, and since they go on until they get a `quit`, none of
them ever ends. The parents of children never end either. A program that is started later
makes a queue of its own.

## Main definitions

* `Args`: The types of a program.
* `State`, `Event`, `step`: The programs and their queue.
* `programs`: The runs.
* `Quits`: A message that begins with `quit`.
* `Goes`: What a step does.

## Theorems

* `messages_eq_some_iff`: The messages of a queue.
* `goes_of_step`: The steps do what `Goes` says.
-/

namespace BlogSample

namespace MessagePassing

open MessageQueue Stdio Transition

/-- The arguments of a program. -/
structure Args where
  sendId : Int
  recvId : Int

/-- `(int)recvId`. -/
def Args.msgtyp (args : Args) : Int := args.recvId.bmod 4294967296

/-- Where a child is: not there, in its loop, before `msgctl`, or behind it. -/
inductive Child
  | none
  | msgrcv
  | msgctl
  | ended
  deriving DecidableEq

/-- Where a parent is: before `fork`, before `fgets`, before `msgsnd` with a
    text, or, if there is no child, before `msgctl` or behind it. -/
inductive Parent
  | fork
  | fgets
  | msgsnd (text : List Char)
  | msgctl
  | ended
  deriving DecidableEq

/-- A text that has been sent or received: on which queue, under which type, by
    which program. -/
structure Entry (ι : Type) where
  queue : Nat
  type : Int
  program : ι
  text : List Char

/-- The queue of the key, if there is one, and the next number of a queue; the
    queue that each program has got, if it has been started, its two processes
    and what is left of its input; and what has been sent and received. -/
structure State (ι : Type) where
  queue : Option (Nat × List (Int × List Char))
  next : Nat
  msgid : ι → Option Nat
  child : ι → Child
  parent : ι → Parent
  stdin : ι → List Char
  sent : List (Entry ι)
  received : List (Entry ι)

/-- A program is started, or goes on. A `fork` may fail. -/
inductive Event (ι : Type)
  | start (i : ι)
  | fork (i : ι) (success : Bool)
  | release (i : ι)
  | msgrcv (i : ι)
  | msgctl (i : ι)
  | fgets (i : ι)
  | msgsnd (i : ι)

/-- A text begins with `quit`. -/
def Quits (text : List Char) : Prop := text.take 4 = ['q', 'u', 'i', 't']

instance : DecidablePred Quits := fun text =>
  inferInstanceAs (Decidable (text.take 4 = ['q', 'u', 'i', 't']))

/-- A queue has room for a text. -/
def room (capacity : Nat) (messages : List (Int × List Char)) (text : List Char) : Bool :=
  decide (tally (fun m => m.2.length) messages + text.length ≤ capacity ∧
    messages.length < capacity)

/-- The messages of a queue, if it has not been removed. -/
def State.messages {ι : Type} (s : State ι) (q : Nat) : Option (List (Int × List Char)) :=
  match s.queue with
  | some (q', messages) => if q' = q then some messages else none
  | none => none

variable {ι : Type} [DecidableEq ι]

/-- One step. A child waits while its queue has no message for it, and fails if
    the queue has been removed; a parent waits while its queue has no room, and
    its text is lost if the queue has been removed or its type is not positive. -/
def step (args : ι → Args) (capacity : Nat) (s : State ι) : Event ι → Option (State ι)
  | .start i =>
      -- `msgget` finds the queue of the key, or makes one.
      match s.msgid i, s.queue with
      | none, some (q, _) => some { s with msgid := Function.update s.msgid i (some q) }
      | none, none =>
          some
            { s with
              queue := some (s.next, [])
              next := s.next + 1
              msgid := Function.update s.msgid i (some s.next) }
      | some _, _ => none
  | .fork i success =>
      match s.msgid i, s.parent i with
      | some _, .fork =>
          if success then
            some
              { s with
                parent := Function.update s.parent i .fgets
                child := Function.update s.child i .msgrcv }
          -- `fork` has returned -1: neither `if` is entered.
          else some { s with parent := Function.update s.parent i .msgctl }
      | _, _ => none
  | .release i =>
      match s.msgid i, s.parent i with
      | some q, .msgctl =>
          some
            { s with
              queue := s.queue.filter (fun x => x.1 ≠ q)
              parent := Function.update s.parent i .ended }
      | _, _ => none
  | .msgrcv i =>
      match s.msgid i, s.child i with
      | some q, .msgrcv =>
          match s.messages q with
          | some messages =>
              (msgrcv (args i).msgtyp messages).map (fun (type, text, rest) =>
                { s with
                  queue := some (q, rest)
                  child := Function.update s.child i (if Quits text then .msgctl else .msgrcv)
                  received := s.received ++ [⟨q, type, i, text⟩] })
          -- `msgrcv` fails, and the buffer is empty.
          | none => some s
      | _, _ => none
  | .msgctl i =>
      match s.msgid i, s.child i with
      | some q, .msgctl =>
          some
            { s with
              queue := s.queue.filter (fun x => x.1 ≠ q)
              child := Function.update s.child i .ended }
      | _, _ => none
  | .fgets i =>
      match s.msgid i, s.parent i with
      | some _, .fgets =>
          match Stdio.fgets 124 (s.stdin i) with
          | some (line, rest) =>
              some
                { s with
                  parent := Function.update s.parent i (.msgsnd (cstring line))
                  stdin := Function.update s.stdin i rest }
          -- At the end of the input the buffer stays empty.
          | none => some { s with parent := Function.update s.parent i (.msgsnd []) }
      | _, _ => none
  | .msgsnd i =>
      match s.msgid i, s.parent i with
      | some q, .msgsnd text =>
          match s.messages q with
          | some messages =>
              -- `EINVAL`: the text is dropped.
              if (args i).sendId ≤ 0 then
                some { s with parent := Function.update s.parent i .fgets }
              else if room capacity messages text then
                some
                  { s with
                    queue := some (q, messages ++ [((args i).sendId, text)])
                    parent := Function.update s.parent i .fgets
                    sent := s.sent ++ [⟨q, (args i).sendId, i, text⟩] }
              else none
          -- `EIDRM`: the text is dropped here too.
          | none => some { s with parent := Function.update s.parent i .fgets }
      | _, _ => none

/-- No program has been started, and there is no queue. -/
def start (input : ι → List Char) : State ι where
  queue := none
  next := 0
  msgid := fun _ => none
  child := fun _ => .none
  parent := fun _ => .fork
  stdin := input
  sent := []
  received := []

/-- The runs of the programs, with their inputs. -/
def programs (args : ι → Args) (capacity : Nat) (input : ι → List Char) :
    System (State ι) (Event ι) :=
  System.ofFn (fun s => s = start input) (step args capacity)

/-- What a step does. -/
inductive Goes (args : ι → Args) (s : State ι) : State ι → Prop
  | join (i : ι) (q : Nat) (messages : List (Int × List Char)) :
      s.msgid i = none → s.queue = some (q, messages) →
      Goes args s { s with msgid := Function.update s.msgid i (some q) }
  | create (i : ι) : s.msgid i = none → s.queue = none →
      Goes args s
        { s with
          queue := some (s.next, [])
          next := s.next + 1
          msgid := Function.update s.msgid i (some s.next) }
  | fork (i : ι) (q : Nat) : s.msgid i = some q → s.parent i = .fork →
      Goes args s
        { s with
          parent := Function.update s.parent i .fgets
          child := Function.update s.child i .msgrcv }
  | unforked (i : ι) (q : Nat) : s.msgid i = some q → s.parent i = .fork →
      Goes args s { s with parent := Function.update s.parent i .msgctl }
  | release (i : ι) (q : Nat) : s.msgid i = some q → s.parent i = .msgctl →
      Goes args s
        { s with
          queue := s.queue.filter (fun x => x.1 ≠ q)
          parent := Function.update s.parent i .ended }
  | receive (i : ι) (q : Nat) (messages rest : List (Int × List Char)) (type : Int)
      (text : List Char) :
      s.msgid i = some q → s.child i = .msgrcv → s.queue = some (q, messages) →
      Takes (args i).msgtyp type → MessageQueue.receive type messages = some (text, rest) →
      Goes args s
        { s with
          queue := some (q, rest)
          child := Function.update s.child i (if Quits text then .msgctl else .msgrcv)
          received := s.received ++ [⟨q, type, i, text⟩] }
  | fail : Goes args s s
  | remove (i : ι) (q : Nat) : s.msgid i = some q → s.child i = .msgctl →
      Goes args s
        { s with
          queue := s.queue.filter (fun x => x.1 ≠ q)
          child := Function.update s.child i .ended }
  | read (i : ι) (q : Nat) (line rest : List Char) : s.msgid i = some q → s.parent i = .fgets →
      Stdio.fgets 124 (s.stdin i) = some (line, rest) →
      Goes args s
        { s with
          parent := Function.update s.parent i (.msgsnd (cstring line))
          stdin := Function.update s.stdin i rest }
  | eof (i : ι) (q : Nat) : s.msgid i = some q → s.parent i = .fgets → s.stdin i = [] →
      Goes args s { s with parent := Function.update s.parent i (.msgsnd []) }
  | send (i : ι) (q : Nat) (messages : List (Int × List Char)) (text : List Char) :
      s.msgid i = some q → s.parent i = .msgsnd text → s.queue = some (q, messages) →
      0 < (args i).sendId →
      Goes args s
        { s with
          queue := some (q, messages ++ [((args i).sendId, text)])
          parent := Function.update s.parent i .fgets
          sent := s.sent ++ [⟨q, (args i).sendId, i, text⟩] }
  | lose (i : ι) (q : Nat) (text : List Char) : s.msgid i = some q →
      s.parent i = .msgsnd text → (s.messages q = none ∨ (args i).sendId ≤ 0) →
      Goes args s { s with parent := Function.update s.parent i .fgets }

section Steps

variable {args : ι → Args} {capacity : Nat} {s t : State ι}

omit [DecidableEq ι] in
theorem messages_eq_some_iff {q : Nat} {messages : List (Int × List Char)} :
    s.messages q = some messages ↔ s.queue = some (q, messages) := by
  unfold State.messages
  cases s.queue with
  | none => exact iff_of_false nofun nofun
  | some x =>
      rcases x with ⟨q', messages'⟩
      simp only
      by_cases hq : q' = q
      · rw [if_pos hq, hq]
        simp
      · rw [if_neg hq]
        refine iff_of_false nofun (fun h => hq ?_)
        exact (Prod.mk.inj (Option.some.inj h)).1

theorem goes_of_step {e : Event ι} (h : step args capacity s e = some t) : Goes args s t := by
  cases e with
  | start i =>
      simp only [step] at h
      split at h
      · next q messages hnone hqueue =>
          rw [← Option.some.inj h]
          exact .join i q messages hnone hqueue
      · next hnone hqueue =>
          rw [← Option.some.inj h]
          exact .create i hnone hqueue
      · cases h
  | fork i success =>
      simp only [step] at h
      split at h
      · next q hmsgid hparent =>
          split at h
          · rw [← Option.some.inj h]
            exact .fork i q hmsgid hparent
          · rw [← Option.some.inj h]
            exact .unforked i q hmsgid hparent
      · cases h
  | release i =>
      simp only [step] at h
      split at h
      · next q hmsgid hparent =>
          rw [← Option.some.inj h]
          exact .release i q hmsgid hparent
      · cases h
  | msgrcv i =>
      simp only [step] at h
      split at h
      · next q hmsgid hchild =>
          split at h
          · next messages hmessages =>
              -- There is a message of the type: it leaves the queue.
              rw [Option.map_eq_some_iff] at h
              rcases h with ⟨⟨type, text, rest⟩, hmsgrcv, rfl⟩
              rcases msgrcv_eq_some hmsgrcv with ⟨htakes, hreceive⟩
              exact .receive i q messages rest type text hmsgid hchild
                (messages_eq_some_iff.mp hmessages) htakes hreceive
          -- The queue has been removed, and nothing changes.
          · rw [← Option.some.inj h]
            exact .fail
      · cases h
  | msgctl i =>
      simp only [step] at h
      split at h
      · next q hmsgid hchild =>
          rw [← Option.some.inj h]
          exact .remove i q hmsgid hchild
      · cases h
  | fgets i =>
      simp only [step] at h
      split at h
      · next q hmsgid hparent =>
          split at h
          · next line rest hfgets =>
              rw [← Option.some.inj h]
              exact .read i q line rest hmsgid hparent hfgets
          · next hfgets =>
              rw [← Option.some.inj h]
              exact .eof i q hmsgid hparent (fgets_eq_none_iff.mp hfgets)
      · cases h
  | msgsnd i =>
      simp only [step] at h
      split at h
      · next q text hmsgid hparent =>
          split at h
          · next messages hmessages =>
              split at h
              · next hsendId =>
                  rw [← Option.some.inj h]
                  -- The type is refused, though the queue is there.
                  exact .lose i q text hmsgid hparent (Or.inr hsendId)
              · next hsendId =>
                  split at h
                  · rw [← Option.some.inj h]
                    exact .send i q messages text hmsgid hparent
                      (messages_eq_some_iff.mp hmessages) (Int.not_le.mp hsendId)
                  · cases h
          · next hmessages =>
              rw [← Option.some.inj h]
              exact .lose i q text hmsgid hparent (Or.inl hmessages)
      · cases h

end Steps

end MessagePassing

end BlogSample
