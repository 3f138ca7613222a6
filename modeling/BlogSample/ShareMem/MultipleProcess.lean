import BlogSample.Theory.Stdio
import BlogSample.Theory.Transition

/-!
# A Shared Segment and Two Signals

A parent process reads lines into a shared segment and tells its child by a
signal, the child prints the segment and tells the parent by a signal. Each
waits for the other's signal in `pause`.

A signal that arrives before its receiver is in `pause` runs the handler, which
does nothing, and is gone: `pause` does not return for it. Before the handler
is set, it ends the process. So the two work only as long as every signal finds
its receiver asleep, and nothing in the program sees to it. The first one that
does not leaves both in `pause` for ever.

What the child prints is right in any case: it reads the segment only while the
parent waits, and each message once.

## Main definitions

* `Parent`, `Child`: Where the processes are.
* `signalled`: What a signal does to them.
* `State`, `step`, `processes`: The runs.
* `message`: What the parent has written in a round.
* `Doomed`: Both wait, or will.
* `Missed`: A signal that does not find its receiver asleep.

## Theorems

* `reachable_inv`: The invariant holds.
* `printed_messages`: What is printed, and when the segment is read.
* `doomed_iff_missed`: It takes one missed signal.
* `prints_again_iff`: When something will be printed again.
-/

namespace BlogSample

namespace ShareMem

open Stdio Transition

/-- Where the parent is: before `shmat`, `signal`, `fgets`, `kill` or `pause`,
    asleep in `pause`, or ended by a signal. -/
inductive Parent
  | shmat
  | signal
  | fgets
  | kill
  | pause
  | asleep
  | killed
  deriving DecidableEq

/-- Where the child is: before `signal`, `shmat`, `pause`, `printf` or `kill`,
    asleep in `pause`, or ended by a signal. -/
inductive Child
  | signal
  | shmat
  | pause
  | asleep
  | printf
  | kill
  | killed
  deriving DecidableEq

/-- The parent gets `SIGUSR1`. -/
def Parent.signalled : Parent → Parent
  | .shmat => .killed
  | .signal => .killed
  | .asleep => .fgets
  | p => p

/-- The child gets `SIGUSR1`. -/
def Child.signalled : Child → Child
  | .signal => .killed
  | .asleep => .printf
  | c => c

/-- What is still to be read, the shared segment, and where the processes are;
    and what the parent has written and the child has printed so far. -/
structure State where
  stdin : List Char
  p : List Char
  parent : Parent
  child : Child
  written : List (List Char)
  printed : List (List Char)

/-- The process that goes on. -/
inductive Process
  | parent
  | child
  deriving DecidableEq

/-- One step. At the end of its input the parent sends the old message. -/
def step (s : State) : Process → Option State
  | .parent =>
      match s.parent with
      | .shmat => some { s with parent := .signal }
      | .signal => some { s with parent := .fgets }
      | .fgets =>
          match Stdio.fgets 128 s.stdin with
          | some (line, rest) =>
              some
                { s with
                  stdin := rest
                  p := line
                  parent := .kill
                  written := s.written ++ [line] }
          -- At the end of the input, `p` still has the last line.
          | none => some { s with parent := .kill, written := s.written ++ [s.p] }
      | .kill => some { s with parent := .pause, child := s.child.signalled }
      | .pause => some { s with parent := .asleep }
      | .asleep => none
      | .killed => none
  | .child =>
      match s.child with
      | .signal => some { s with child := .shmat }
      | .shmat => some { s with child := .pause }
      | .pause => some { s with child := .asleep }
      | .printf => some { s with child := .kill, printed := s.printed ++ [cstring s.p] }
      | .kill => some { s with child := .pause, parent := s.parent.signalled }
      | .asleep => none
      | .killed => none

/-- The parent has forked, and nothing has been read. -/
def start (stdin : List Char) : State where
  stdin := stdin
  p := []
  parent := .shmat
  child := .signal
  written := []
  printed := []

/-- The runs of the two processes. -/
def processes (stdin : List Char) : System State Process :=
  System.ofFn (fun s => s = start stdin) step

/-! ### Messages -/

/-- The segment and the input after a number of rounds. -/
def rounds (stdin : List Char) : Nat → List Char × List Char
  | 0 => ([], stdin)
  | n + 1 =>
      match Stdio.fgets 128 (rounds stdin n).2 with
      | some (line, rest) => (line, rest)
      | none => ((rounds stdin n).1, (rounds stdin n).2)

/-- What the parent has written in a round. -/
def message (stdin : List Char) (n : Nat) : List Char :=
  (rounds stdin (n + 1)).1

/-- Up to the end of the input, the messages are the input. -/
theorem messages_append {stdin : List Char} {n : Nat} (h : (rounds stdin n).2 ≠ []) :
    ((List.range n).map (message stdin)).flatten ++ (rounds stdin n).2 = stdin := by
  induction n with
  | zero => rfl
  | succ n ih =>
      have hround : rounds stdin (n + 1) =
          match Stdio.fgets 128 (rounds stdin n).2 with
          | some (line, rest) => (line, rest)
          | none => ((rounds stdin n).1, (rounds stdin n).2) := rfl
      cases hfgets : Stdio.fgets 128 (rounds stdin n).2 with
      | none =>
          -- At the end of the input there is nothing left.
          rw [hround, hfgets] at h
          exact absurd (fgets_eq_none_iff.mp hfgets) h
      | some x =>
          rcases x with ⟨line, rest⟩
          rw [hfgets] at hround
          have hrest : (rounds stdin n).2 ≠ [] := fun hnil => by
            rw [fgets_eq_none_iff.mpr hnil] at hfgets
            cases hfgets
          -- The next line is cut off from what is left.
          have hsplit := fgets_append hfgets
          have hbefore := ih hrest
          rw [List.range_succ, List.map_append, List.flatten_append, List.map_singleton,
            List.flatten_singleton, List.append_assoc]
          unfold message
          rw [hround]
          simp only
          rw [hsplit]
          exact hbefore

/-- The parent writes nothing that it has not read. -/
theorem mem_of_message {stdin : List Char} {n : Nat} {c : Char} (h : c ∈ message stdin n) :
    c ∈ stdin := by
  have hrounds : ∀ n, c ∈ (rounds stdin n).1 ∨ c ∈ (rounds stdin n).2 → c ∈ stdin := by
    intro n
    induction n with
    | zero => exact fun hmem => hmem.resolve_left List.not_mem_nil
    | succ n ih =>
        unfold rounds
        cases hfgets : Stdio.fgets 128 (rounds stdin n).2 with
        | none => exact ih
        | some x =>
            have happend := fgets_append hfgets
            intro hmem
            refine ih (.inr ?_)
            rw [← happend, List.mem_append]
            exact hmem
  exact hrounds (n + 1) (.inl h)

/-! ### The invariant -/

/-- The parent has not sent its signal. -/
def Parent.writes : Parent → Bool
  | .shmat => true
  | .signal => true
  | .fgets => true
  | .kill => true
  | _ => false

/-- The parent waits for the child, or will do so. -/
def Parent.waits : Parent → Bool
  | .pause => true
  | .asleep => true
  | _ => false

/-- The child has been told that there is a message. -/
def Child.reads : Child → Bool
  | .printf => true
  | .kill => true
  | _ => false

/-- The child waits for the parent, or will do so. -/
def Child.waits : Child → Bool
  | .signal => true
  | .shmat => true
  | .pause => true
  | .asleep => true
  | _ => false

/-- Both wait, or will, or the child has ended. -/
def Doomed (s : State) : Prop :=
  s.parent.waits = true ∧ s.child.reads = false

/-- The child is told only while the parent waits, the messages are those of
    the rounds, and at most one of them has not been printed. -/
structure Inv (stdin : List Char) (s : State) : Prop where
  turn : s.parent.waits = true ∨ s.parent.writes = true ∧ s.child.waits = true
  segment : (s.p, s.stdin) = rounds stdin s.written.length
  written : s.written = (List.range s.written.length).map (message stdin)
  printed : s.printed = (List.range s.printed.length).map (fun n => cstring (message stdin n))
  length_le : s.printed.length ≤ s.written.length
  le_length : s.written.length ≤ s.printed.length + 1
  unread : s.parent = .kill ∨ s.child = .printf → s.written.length = s.printed.length + 1
  read : s.parent.writes = true ∧ s.parent ≠ .kill ∨ s.child = .kill →
    s.written.length = s.printed.length

section Invariant

variable {stdin : List Char} {s t : State}

theorem start_inv (stdin : List Char) : Inv stdin (start stdin) :=
  ⟨.inr ⟨rfl, rfl⟩, rfl, rfl, rfl, Nat.le_refl 0, Nat.zero_le 1,
    fun h => h.elim nofun nofun, fun _ => rfl⟩

/-- A process goes on, and nothing is read, written or printed. -/
theorem Inv.move (h : Inv stdin s) (parent : Parent) (child : Child)
    (hturn : parent.waits = true ∨ parent.writes = true ∧ child.waits = true)
    (hunread : parent = .kill ∨ child = .printf → s.written.length = s.printed.length + 1)
    (hread : parent.writes = true ∧ parent ≠ .kill ∨ child = .kill →
      s.written.length = s.printed.length) :
    Inv stdin { s with parent := parent, child := child } :=
  ⟨hturn, h.segment, h.written, h.printed, h.length_le, h.le_length, hunread, hread⟩

/-- The parent is done with a round of `fgets`. -/
theorem Inv.fgets (h : Inv stdin s) (hparent : s.parent = .fgets) {p rest : List Char}
    (hround : rounds stdin (s.written.length + 1) = (p, rest)) :
    Inv stdin
      { s with
        stdin := rest
        p := p
        parent := .kill
        written := s.written ++ [p] } := by
  have hread := h.read (.inl ⟨by rw [hparent]; rfl, by rw [hparent]; nofun⟩)
  -- It is the turn of the parent, so the child waits.
  have hwaits : s.child.waits = true := by
    rcases h.turn with hwaits | hturn
    · rw [hparent] at hwaits
      cases hwaits
    · exact hturn.2
  have hlength : (s.written ++ [p]).length = s.written.length + 1 := List.length_append
  refine ⟨.inr ⟨rfl, hwaits⟩, ?_, ?_, h.printed, ?_, ?_, fun _ => ?_, fun hchild => ?_⟩
  · exact (hlength ▸ hround).symm
  -- The text is the message of this round.
  · have hmessage : message stdin s.written.length = p := by
      unfold message
      rw [hround]
    change s.written ++ [p] = (List.range (s.written ++ [p]).length).map (message stdin)
    rw [hlength, List.range_succ, List.map_append, ← h.written, List.map_singleton, hmessage]
  · change s.printed.length ≤ (s.written ++ [p]).length
    omega
  · change (s.written ++ [p]).length ≤ s.printed.length + 1
    omega
  · change (s.written ++ [p]).length = s.printed.length + 1
    omega
  · rcases hchild with ⟨-, hne⟩ | hkill
    · exact absurd rfl hne
    · change s.child = .kill at hkill
      rw [hkill] at hwaits
      cases hwaits

/-- The child prints the segment. -/
theorem Inv.printf (h : Inv stdin s) (hchild : s.child = .printf) :
    Inv stdin { s with child := .kill, printed := s.printed ++ [cstring s.p] } := by
  have hunread := h.unread (.inr hchild)
  have hwaits : s.parent.waits = true := by
    rcases h.turn with hwaits | hturn
    · exact hwaits
    · rw [hchild] at hturn
      cases hturn.2
  -- What is in the segment is the one message that has not been printed.
  have hmessage : s.p = message stdin s.printed.length := by
    have hsegment := congrArg Prod.fst h.segment
    rw [hunread] at hsegment
    exact hsegment
  have hlength : (s.printed ++ [cstring s.p]).length = s.printed.length + 1 := List.length_append
  refine ⟨.inl hwaits, h.segment, h.written, ?_, ?_, ?_, fun hkill => ?_, fun _ => ?_⟩
  · change s.printed ++ [cstring s.p] = (List.range (s.printed ++ [cstring s.p]).length).map _
    rw [hlength, List.range_succ, List.map_append, ← h.printed, List.map_singleton, ← hmessage]
  · change (s.printed ++ [cstring s.p]).length ≤ s.written.length
    omega
  · change s.written.length ≤ (s.printed ++ [cstring s.p]).length + 1
    omega
  · rcases hkill with hkill | hkill
    · change s.parent = .kill at hkill
      rw [hkill] at hwaits
      cases hwaits
    · cases hkill
  · change s.written.length = (s.printed ++ [cstring s.p]).length
    omega

/-- What a signal does to a child that waits. -/
theorem signalled_reads {c : Child} (h : c.waits = true) :
    c.signalled ≠ .kill ∧ (c.signalled.reads = true ↔ c = .asleep) := by
  cases c with
  | signal => exact ⟨nofun, iff_of_false nofun nofun⟩
  | shmat => exact ⟨nofun, iff_of_false nofun nofun⟩
  | pause => exact ⟨nofun, iff_of_false nofun nofun⟩
  | asleep => exact ⟨nofun, iff_of_true rfl rfl⟩
  | printf => cases h
  | kill => cases h
  | killed => cases h

/-- What a signal does to a parent that waits. -/
theorem signalled_waits {p : Parent} (h : p.waits = true) :
    (p = .pause ∧ p.signalled = .pause) ∨ (p = .asleep ∧ p.signalled = .fgets) := by
  cases p with
  | pause => exact .inl ⟨rfl, rfl⟩
  | asleep => exact .inr ⟨rfl, rfl⟩
  | shmat => cases h
  | signal => cases h
  | fgets => cases h
  | kill => cases h
  | killed => cases h

theorem Inv.parent_step (h : Inv stdin s) (hst : step s .parent = some t) : Inv stdin t := by
  unfold step at hst
  simp only at hst
  cases hparent : s.parent with
  | shmat =>
      rw [hparent, Option.some.injEq] at hst
      rw [← hst]
      -- It is the turn of the parent: the child has read what is there, and waits.
      have hchild := (h.turn.resolve_left (by rw [hparent]; nofun)).2
      have hread := h.read (.inl ⟨by rw [hparent]; rfl, by rw [hparent]; nofun⟩)
      exact h.move .signal s.child (.inr ⟨rfl, hchild⟩)
        (fun hkill => h.unread (hkill.imp_left nofun)) (fun _ => hread)
  | signal =>
      rw [hparent, Option.some.injEq] at hst
      rw [← hst]
      have hchild := (h.turn.resolve_left (by rw [hparent]; nofun)).2
      have hread := h.read (.inl ⟨by rw [hparent]; rfl, by rw [hparent]; nofun⟩)
      exact h.move .fgets s.child (.inr ⟨rfl, hchild⟩)
        (fun hkill => h.unread (hkill.imp_left nofun)) (fun _ => hread)
  | fgets =>
      rw [hparent] at hst
      -- The next round writes what `fgets` gives, or the old line again at the end of
      -- the input.
      have hstdin : (rounds stdin s.written.length).2 = s.stdin := by rw [← h.segment]
      have hp : (rounds stdin s.written.length).1 = s.p := by rw [← h.segment]
      cases hfgets : Stdio.fgets 128 s.stdin with
      | none =>
          simp only [hfgets, Option.some.injEq] at hst
          rw [← hst]
          exact h.fgets hparent (by simp only [rounds, hstdin, hfgets, hp])
      | some x =>
          rcases x with ⟨line, rest⟩
          simp only [hfgets, Option.some.injEq] at hst
          rw [← hst]
          exact h.fgets hparent (by simp only [rounds, hstdin, hfgets])
  | kill =>
      rw [hparent, Option.some.injEq] at hst
      rw [← hst]
      have hchild := (h.turn.resolve_left (by rw [hparent]; nofun)).2
      -- The signal hands the turn to the child.
      have hunread := h.unread (.inl hparent)
      refine h.move .pause s.child.signalled (.inl rfl) (fun _ => hunread) (fun hread => ?_)
      exact hread.elim (fun hwrites => nomatch hwrites.1)
        (fun hkill => absurd hkill (signalled_reads hchild).1)
  | pause =>
      rw [hparent, Option.some.injEq] at hst
      rw [← hst]
      refine h.move .asleep s.child (.inl rfl) (fun hkill => h.unread (hkill.imp_left nofun))
        (fun hread => ?_)
      exact hread.elim (fun hwrites => nomatch hwrites.1) (fun hkill => h.read (.inr hkill))
  | asleep =>
      rw [hparent] at hst
      cases hst
  | killed =>
      rw [hparent] at hst
      cases hst

/-- A child that has not been told anything goes on. -/
theorem Inv.child_wait (h : Inv stdin s) {child : Child} (hwaits : child.waits = true)
    (hprintf : child ≠ .printf) (hkill : child ≠ .kill) :
    Inv stdin { s with child := child } :=
  h.move s.parent child (h.turn.imp_right (fun hturn => ⟨hturn.1, hwaits⟩))
    (fun hunread => h.unread (.inl (hunread.resolve_right hprintf)))
    (fun hread => h.read (.inl (hread.resolve_right hkill)))

theorem Inv.child_step (h : Inv stdin s) (hst : step s .child = some t) : Inv stdin t := by
  unfold step at hst
  simp only at hst
  cases hchild : s.child with
  | signal =>
      rw [hchild, Option.some.injEq] at hst
      rw [← hst]
      exact h.child_wait rfl nofun nofun
  | shmat =>
      rw [hchild, Option.some.injEq] at hst
      rw [← hst]
      exact h.child_wait rfl nofun nofun
  | pause =>
      rw [hchild, Option.some.injEq] at hst
      rw [← hst]
      exact h.child_wait rfl nofun nofun
  | printf =>
      rw [hchild, Option.some.injEq] at hst
      rw [← hst]
      exact h.printf hchild
  | kill =>
      rw [hchild, Option.some.injEq] at hst
      rw [← hst]
      have hread := h.read (.inr hchild)
      -- The turn comes back to the parent, which waits or is about to.
      have hwaits : s.parent.waits = true := by
        rcases h.turn with hwaits | hturn
        · exact hwaits
        · rw [hchild] at hturn
          cases hturn.2
      -- A signal before `pause` is lost, and then both wait.
      rcases signalled_waits hwaits with ⟨-, hsignal⟩ | ⟨-, hsignal⟩
      · rw [hsignal]
        exact h.move .pause .pause (.inl rfl) (fun hkill => hkill.elim nofun nofun)
          (fun _ => hread)
      · rw [hsignal]
        exact h.move .fgets .pause (.inr ⟨rfl, rfl⟩) (fun hkill => hkill.elim nofun nofun)
          (fun _ => hread)
  | asleep =>
      rw [hchild] at hst
      cases hst
  | killed =>
      rw [hchild] at hst
      cases hst

theorem Inv.step (h : Inv stdin s) {a : Process} (hst : ShareMem.step s a = some t) :
    Inv stdin t := by
  cases a with
  | parent => exact h.parent_step hst
  | child => exact h.child_step hst

/-- The invariant holds. -/
theorem reachable_inv (h : (processes stdin).Reachable s) : Inv stdin s := by
  refine h.invariant (Inv stdin) ?_ ?_
  · rintro s rfl
    exact start_inv stdin
  · exact fun s a t hs hst => hs.step hst

/-- What the child has printed are the first messages of the parent, each once
    and in order, all but the last one at most; and while it is about to read
    the segment, the parent waits. If the input has no zeros, they are printed
    as they were written, and up to its end they are what was read of it. -/
theorem printed_messages (h : (processes stdin).Reachable s) :
    s.printed = (List.range s.printed.length).map (fun n => cstring (message stdin n)) ∧
    s.printed.length ≤ s.written.length ∧ s.written.length ≤ s.printed.length + 1 ∧
    (s.child.reads = true → s.parent.waits = true) ∧
    ('\x00' ∉ stdin → s.printed <+: s.written) ∧
    (s.stdin ≠ [] → s.written.flatten ++ s.stdin = stdin) := by
  have hinv := reachable_inv h
  refine ⟨hinv.printed, hinv.length_le, hinv.le_length, fun hreads => ?_, fun hzero => ?_,
    fun hmore => ?_⟩
  · rcases hinv.turn with hwaits | ⟨-, hwaits⟩
    · exact hwaits
    · cases hchild : s.child <;> rw [hchild] at hreads hwaits <;> cases hreads <;> cases hwaits
  · have hplain : ∀ n, cstring (message stdin n) = message stdin n := fun n =>
      (cstring_eq_self_iff _).mpr (fun hmem => hzero (mem_of_message hmem))
    rw [hinv.written, hinv.printed]
    simp only [hplain]
    refine List.IsPrefix.map _ ?_
    rw [List.prefix_iff_eq_take, List.length_range, List.take_range, Nat.min_eq_left]
    exact hinv.length_le
  · have hstdin : (rounds stdin s.written.length).2 = s.stdin := by rw [← hinv.segment]
    rw [← hstdin] at hmore ⊢
    have happend := messages_append hmore
    rw [← hinv.written] at happend
    exact happend

/-- Two messages have been printed, and a third one is on its way. -/
theorem printed_messages_two : ∃ s : State,
    (processes ['h', 'i', '\n', 'y', 'o', '\n', '!', '\n', '?']).Reachable s ∧
    s.printed = [['h', 'i', '\n'], ['y', 'o', '\n']] ∧ s.child = .printf ∧
    (s.printed = (List.range s.printed.length).map
      (fun n => cstring (message ['h', 'i', '\n', 'y', 'o', '\n', '!', '\n', '?'] n)) ∧
    s.printed.length ≤ s.written.length ∧ s.written.length ≤ s.printed.length + 1 ∧
    (s.child.reads = true → s.parent.waits = true) ∧
    ('\x00' ∉ ['h', 'i', '\n', 'y', 'o', '\n', '!', '\n', '?'] → s.printed <+: s.written) ∧
    (s.stdin ≠ [] →
      s.written.flatten ++ s.stdin = ['h', 'i', '\n', 'y', 'o', '\n', '!', '\n', '?'])) := by
  rcases System.exists_exec step (start ['h', 'i', '\n', 'y', 'o', '\n', '!', '\n', '?'])
    [.child, .child, .child, .parent, .parent, .parent, .parent, .parent, .child, .child,
      .child, .parent, .parent, .parent, .child, .child, .child, .parent, .parent]
    (fun s => decide (s.printed = [['h', 'i', '\n'], ['y', 'o', '\n']] ∧ s.child = .printf))
    (by decide +kernel) with ⟨s, hexec, hend⟩
  rcases of_decide_eq_true hend with ⟨hprinted, hprintf⟩
  have h : (processes ['h', 'i', '\n', 'y', 'o', '\n', '!', '\n', '?']).Reachable s :=
    System.reachable_of_exec _ _ _ (.init _ rfl) hexec
  exact ⟨s, h, hprinted, hprintf, printed_messages h⟩

end Invariant

/-! ### Missed signals -/

/-- The signal that a step sends does not find its receiver asleep. -/
def Missed (s : State) : Process → Prop
  | .parent => s.parent = .kill ∧ s.child ≠ .asleep
  | .child => s.child = .kill ∧ s.parent ≠ .asleep

/-- The signal that a step sends, if any, finds its receiver asleep. -/
def Heard (s : State) (a : Process) : Prop := ¬ Missed s a

section Missed

variable {stdin : List Char} {s t : State} {a : Process}

/-- Who waits for nothing goes on waiting. -/
theorem Doomed.step (h : Doomed s) (hst : step s a = some t) :
    Doomed t ∧ t.printed = s.printed := by
  -- Both are before `pause` or in it, and no signal is on its way.
  rcases h with ⟨hparent, hchild⟩
  unfold ShareMem.step at hst
  cases a with
  | parent =>
      simp only at hst
      cases hp : s.parent with
      | pause =>
          rw [hp, Option.some.injEq] at hst
          rw [← hst]
          exact ⟨⟨rfl, hchild⟩, rfl⟩
      | asleep =>
          rw [hp] at hst
          cases hst
      | shmat => rw [hp] at hparent; cases hparent
      | signal => rw [hp] at hparent; cases hparent
      | fgets => rw [hp] at hparent; cases hparent
      | kill => rw [hp] at hparent; cases hparent
      | killed => rw [hp] at hparent; cases hparent
  | child =>
      simp only at hst
      cases hc : s.child with
      | signal =>
          rw [hc, Option.some.injEq] at hst
          rw [← hst]
          exact ⟨⟨hparent, rfl⟩, rfl⟩
      | shmat =>
          rw [hc, Option.some.injEq] at hst
          rw [← hst]
          exact ⟨⟨hparent, rfl⟩, rfl⟩
      | pause =>
          rw [hc, Option.some.injEq] at hst
          rw [← hst]
          exact ⟨⟨hparent, rfl⟩, rfl⟩
      | printf => rw [hc] at hchild; cases hchild
      | kill => rw [hc] at hchild; cases hchild
      | asleep =>
          rw [hc] at hst
          cases hst
      | killed =>
          rw [hc] at hst
          cases hst

/-- After a missed signal both wait. -/
theorem doomed_of_missed (h : Inv stdin s) (hst : step s a = some t) (hmissed : Missed s a) :
    Doomed t := by
  unfold step at hst
  cases a with
  | parent =>
      rcases hmissed with ⟨hkill, hawake⟩
      simp only [hkill, Option.some.injEq] at hst
      rw [← hst]
      -- The child was not in `pause` yet, and goes to sleep without the signal.
      have hchild := (h.turn.resolve_left (by rw [hkill]; nofun)).2
      exact ⟨rfl, Bool.eq_false_iff.mpr (fun hreads =>
        hawake ((signalled_reads hchild).2.mp hreads))⟩
  | child =>
      rcases hmissed with ⟨hkill, hawake⟩
      simp only [hkill, Option.some.injEq] at hst
      rw [← hst]
      -- Likewise for the parent.
      have hwaits : s.parent.waits = true := by
        rcases h.turn with hwaits | hturn
        · exact hwaits
        · rw [hkill] at hturn
          cases hturn.2
      rcases signalled_waits hwaits with ⟨-, hsignal⟩ | ⟨hasleep, -⟩
      · refine ⟨?_, rfl⟩
        change s.parent.signalled.waits = true
        rw [hsignal]
        rfl
      · exact absurd hasleep hawake

/-- Whose turn it is, if the two are not doomed. -/
theorem Inv.turns (h : Inv stdin s) (hnot : ¬ Doomed s) :
    (s.parent.waits = true ∧ s.child.reads = true) ∨
      (s.parent.writes = true ∧ s.child.waits = true) := by
  rcases h.turn with hwaits | hturn
  · exact .inl ⟨hwaits, (Bool.not_eq_false _).mp (fun hreads => hnot ⟨hwaits, hreads⟩)⟩
  · exact .inr hturn

theorem waits_of_writes {p : Parent} (h : p.writes = true) : p.waits = false := by
  cases p <;> first | rfl | cases h

/-- While every signal is heard, the two are not doomed. -/
theorem not_doomed_step (h : Inv stdin s) (hnot : ¬ Doomed s) (hst : step s a = some t)
    (hheard : Heard s a) : ¬ Doomed t := by
  rcases h.turns hnot with ⟨hparent, hchild⟩ | ⟨hparent, hchild⟩
  -- The child has the message.
  · have hreads : s.child = .printf ∨ s.child = .kill := by
      cases hc : s.child <;> rw [hc] at hchild <;> first | exact .inl rfl | exact .inr rfl |
        cases hchild
    cases a with
    | parent =>
        rcases signalled_waits hparent with ⟨hp, -⟩ | ⟨hp, -⟩
        · simp only [step, hp, Option.some.injEq] at hst
          rw [← hst]
          intro hdoomed
          exact absurd hdoomed.2 (by change ¬ s.child.reads = false; rw [hchild]; nofun)
        · simp only [step, hp] at hst
          cases hst
    | child =>
        rcases hreads with hc | hc
        · simp only [step, hc, Option.some.injEq] at hst
          rw [← hst]
          exact fun hdoomed => nomatch hdoomed.2
        · simp only [step, hc, Option.some.injEq] at hst
          rw [← hst]
          rcases signalled_waits hparent with ⟨hp, -⟩ | ⟨-, hsignal⟩
          · exact absurd ⟨hc, by rw [hp]; nofun⟩ hheard
          · intro hdoomed
            have hwaits : s.parent.signalled.waits = true := hdoomed.1
            rw [hsignal] at hwaits
            cases hwaits
  -- The parent has not sent one.
  · cases a with
    | parent =>
        cases hp : s.parent with
        | shmat =>
            simp only [step, hp, Option.some.injEq] at hst
            rw [← hst]
            exact fun hdoomed => nomatch hdoomed.1
        | signal =>
            simp only [step, hp, Option.some.injEq] at hst
            rw [← hst]
            exact fun hdoomed => nomatch hdoomed.1
        | fgets =>
            simp only [step, hp] at hst
            split at hst <;> rw [Option.some.injEq] at hst <;> rw [← hst] <;>
              exact fun hdoomed => nomatch hdoomed.1
        | kill =>
            simp only [step, hp, Option.some.injEq] at hst
            rw [← hst]
            have hasleep : s.child = .asleep := by
              by_contra hawake
              exact hheard ⟨hp, hawake⟩
            intro hdoomed
            have hreads : s.child.signalled.reads = false := hdoomed.2
            rw [hasleep] at hreads
            cases hreads
        | pause => rw [hp] at hparent; cases hparent
        | asleep => rw [hp] at hparent; cases hparent
        | killed => rw [hp] at hparent; cases hparent
    | child =>
        have hsame : t.parent = s.parent := by
          cases hc : s.child with
          | printf => rw [hc] at hchild; cases hchild
          | kill => rw [hc] at hchild; cases hchild
          | asleep => simp only [step, hc] at hst; cases hst
          | killed => simp only [step, hc] at hst; cases hst
          | signal => simp only [step, hc, Option.some.injEq] at hst; rw [← hst]
          | shmat => simp only [step, hc, Option.some.injEq] at hst; rw [← hst]
          | pause => simp only [step, hc, Option.some.injEq] at hst; rw [← hst]
        intro hdoomed
        have hwaits := hdoomed.1
        rw [hsame, waits_of_writes hparent] at hwaits
        cases hwaits

/-- Both wait for ever if and only if a signal has been missed. -/
theorem doomed_iff_missed {steps : List (State × Process)}
    (h : (processes stdin).Run (start stdin) steps s) :
    Doomed s ↔ ∃ p ∈ steps, Missed p.1 p.2 := by
  constructor
  · intro hdoomed
    by_contra hnone
    have hall : ∀ p ∈ steps, Heard p.1 p.2 := fun p hp hmissed => hnone ⟨p, hp, hmissed⟩
    have hheard := (h.restrict hall).reachable rfl
    have hboth : Inv stdin s ∧ ¬ Doomed s := by
      refine hheard.invariant (fun s => Inv stdin s ∧ ¬ Doomed s) ?_ ?_
      · rintro s rfl
        exact ⟨start_inv stdin, fun hdoomed => nomatch hdoomed.1⟩
      · rintro s a t ⟨hinv, hnot⟩ ⟨hheard, hst⟩
        exact ⟨hinv.step hst, not_doomed_step hinv hnot hst hheard⟩
    exact hboth.2 hdoomed
  · rintro ⟨p, hp, hmissed⟩
    have hnot : ¬ ∀ p ∈ steps, Heard p.1 p.2 := fun hall => hall p hp hmissed
    refine h.breaks Doomed (fun s a t hs hst hbroken => ?_)
      (fun s a t _ hst hdoomed => (hdoomed.step hst).1) rfl hnot
    exact doomed_of_missed (reachable_inv hs) hst (Classical.not_not.mp hbroken)

/-- How far the child is from its next message. -/
def Parent.left : Parent → Nat
  | .shmat => 5
  | .signal => 4
  | .fgets => 3
  | .kill => 2
  | .pause => 1
  | _ => 0

/-- How far the child is from `pause`, or from its own signal. -/
def Child.left : Child → Nat
  | .signal => 3
  | .shmat => 2
  | .pause => 1
  | .kill => 10
  | _ => 0

/-- A step prints the next message, or brings it nearer. -/
def Nearer (s t : State) : Prop :=
  s.printed.length < t.printed.length ∨ (t.printed.length = s.printed.length ∧
    t.parent.left + t.child.left < s.parent.left + s.child.left)

theorem nearer_parent {parent : Parent} (h : parent.left < s.parent.left) :
    Nearer s { s with parent := parent } :=
  .inr ⟨rfl, Nat.add_lt_add_right h _⟩

theorem nearer_child {child : Child} (h : child.left < s.child.left) :
    Nearer s { s with child := child } :=
  .inr ⟨rfl, Nat.add_lt_add_left h _⟩

/-- The child has the message, and prints it or tells the parent. -/
theorem exists_nearer_child (hparent : s.parent.waits = true) (hchild : s.child.reads = true) :
    ∃ a t, step s a = some t ∧ Heard s a ∧ Nearer s t := by
  cases hc : s.child with
  | printf =>
      refine ⟨.child, { s with child := .kill, printed := s.printed ++ [cstring s.p] },
        by simp only [step, hc], fun hmissed => absurd (hc ▸ hmissed.1) nofun, .inl ?_⟩
      change s.printed.length < (s.printed ++ [cstring s.p]).length
      rw [List.length_append]
      exact Nat.lt_succ_self _
  | kill =>
      rcases signalled_waits hparent with ⟨hp, -⟩ | ⟨hp, hsignal⟩
      -- The parent is on its way to sleep.
      · refine ⟨.parent, { s with parent := .asleep }, by simp only [step, hp],
          fun hmissed => absurd (hp ▸ hmissed.1) nofun, nearer_parent ?_⟩
        rw [hp]
        exact Nat.one_pos
      · refine ⟨.child, { s with child := .pause, parent := s.parent.signalled },
          by simp only [step, hc], fun hmissed => hmissed.2 hp, .inr ⟨rfl, ?_⟩⟩
        have hless : Parent.left .fgets + Child.left .pause <
            Parent.left .asleep + Child.left .kill := by decide
        rw [hc, hsignal, hp]
        exact hless
  | signal => rw [hc] at hchild; cases hchild
  | shmat => rw [hc] at hchild; cases hchild
  | pause => rw [hc] at hchild; cases hchild
  | asleep => rw [hc] at hchild; cases hchild
  | killed => rw [hc] at hchild; cases hchild

/-- The child sleeps, and the parent goes on to its signal. -/
theorem exists_nearer_parent (hparent : s.parent.writes = true) (hchild : s.child = .asleep) :
    ∃ a t, step s a = some t ∧ Heard s a ∧ Nearer s t := by
  cases hp : s.parent with
  | shmat =>
      refine ⟨.parent, { s with parent := .signal }, by simp only [step, hp],
        fun hmissed => absurd (hp ▸ hmissed.1) nofun, nearer_parent ?_⟩
      rw [hp]
      decide
  | signal =>
      refine ⟨.parent, { s with parent := .fgets }, by simp only [step, hp],
        fun hmissed => absurd (hp ▸ hmissed.1) nofun, nearer_parent ?_⟩
      rw [hp]
      decide
  -- It has something to write, at the end of the input too.
  | fgets =>
      have hheard : Heard s .parent := fun hmissed => absurd (hp ▸ hmissed.1) nofun
      have hless : Parent.left .kill + s.child.left < s.parent.left + s.child.left := by
        rw [hp]
        exact Nat.add_lt_add_right (Nat.lt_succ_self 2) _
      cases hfgets : Stdio.fgets 128 s.stdin with
      | none =>
          exact ⟨.parent, { s with parent := .kill, written := s.written ++ [s.p] },
            by simp only [step, hp, hfgets], hheard, .inr ⟨rfl, hless⟩⟩
      | some x =>
          exact ⟨.parent,
            { s with stdin := x.2, p := x.1, parent := .kill, written := s.written ++ [x.1] },
            by simp only [step, hp, hfgets], hheard, .inr ⟨rfl, hless⟩⟩
  -- The child sleeps, so the signal is not lost.
  | kill =>
      refine ⟨.parent, { s with parent := .pause, child := s.child.signalled },
        by simp only [step, hp], fun hmissed => hmissed.2 hchild, .inr ⟨rfl, ?_⟩⟩
      have hless : Parent.left .pause + Child.left .printf <
          Parent.left .kill + Child.left .asleep := by decide
      rw [hp, hchild]
      exact hless
  | pause => rw [hp] at hparent; cases hparent
  | asleep => rw [hp] at hparent; cases hparent
  | killed => rw [hp] at hparent; cases hparent

/-- Some step that misses no signal brings the next message nearer, or prints
    it. -/
theorem exists_nearer (h : Inv stdin s) (hnot : ¬ Doomed s) :
    ∃ a t, step s a = some t ∧ Heard s a ∧ Nearer s t := by
  rcases h.turns hnot with ⟨hparent, hchild⟩ | ⟨hparent, hchild⟩
  · exact exists_nearer_child hparent hchild
  · cases hc : s.child with
    | signal =>
        refine ⟨.child, { s with child := .shmat }, by simp only [step, hc],
          fun hmissed => absurd (hc ▸ hmissed.1) nofun, nearer_child ?_⟩
        rw [hc]
        decide
    | shmat =>
        refine ⟨.child, { s with child := .pause }, by simp only [step, hc],
          fun hmissed => absurd (hc ▸ hmissed.1) nofun, nearer_child ?_⟩
        rw [hc]
        decide
    | pause =>
        refine ⟨.child, { s with child := .asleep }, by simp only [step, hc],
          fun hmissed => absurd (hc ▸ hmissed.1) nofun, nearer_child ?_⟩
        rw [hc]
        decide
    | asleep => exact exists_nearer_parent hparent hc
    | printf => rw [hc] at hchild; cases hchild
    | kill => rw [hc] at hchild; cases hchild
    | killed => rw [hc] at hchild; cases hchild

/-- Something can be printed again as long as the two are not doomed. -/
theorem prints_iff_not_doomed (h : (processes stdin).Reachable s) :
    (∃ steps t, (processes stdin).Run s steps t ∧ s.printed.length < t.printed.length) ↔
      ¬ Doomed s := by
  constructor
  · rintro ⟨steps, t, hrun, hmore⟩ hdoomed
    -- Once both wait, nothing is printed any more.
    have hkept : Doomed t ∧ t.printed = s.printed := by
      clear hmore
      induction hrun with
      | nil => exact ⟨hdoomed, rfl⟩
      | snoc steps u a t _ hst ih =>
          have hnext := ih.1.step hst
          exact ⟨hnext.1, hnext.2.trans ih.2⟩
    rw [hkept.2] at hmore
    exact Nat.lt_irrefl _ hmore
  · intro hnot
    -- Otherwise some step that is heard brings the next line nearer.
    refine System.finishes
      (fun u => Inv stdin u ∧ ¬ Doomed u ∧ s.printed.length ≤ u.printed.length)
      (fun u => if s.printed.length < u.printed.length then 0 else
        u.parent.left + u.child.left + 1)
      (fun u => s.printed.length < u.printed.length) (fun u hu hdone => ?_)
      ⟨reachable_inv h, hnot, Nat.le_refl _⟩
    rcases hu with ⟨hinv, hnot, hle⟩
    rcases exists_nearer hinv hnot with ⟨a, t, hst, hheard, hnearer⟩
    refine ⟨a, t, hst, ⟨hinv.step hst, not_doomed_step hinv hnot hst hheard, ?_⟩, ?_⟩
    · rcases hnearer with hmore | ⟨hsame, -⟩ <;> omega
    · simp only [if_neg hdone]
      rcases hnearer with hmore | ⟨hsame, hless⟩
      · rw [if_pos (by omega)]
        exact Nat.succ_pos _
      · rw [if_neg (by omega)]
        exact Nat.succ_lt_succ hless

/-- Something will be printed again in some continuation of a run if and only
    if every signal in the run has found its receiver asleep. -/
theorem prints_again_iff {steps : List (State × Process)}
    (h : (processes stdin).Run (start stdin) steps s) :
    (∃ more t, (processes stdin).Run s more t ∧ s.printed.length < t.printed.length) ↔
      ∀ p ∈ steps, Heard p.1 p.2 := by
  rw [prints_iff_not_doomed (h.reachable rfl), doomed_iff_missed h]
  simp only [not_exists, not_and]
  rfl

/-- The parent sends its first signal before the child has set its handler. -/
theorem prints_again_iff_killed : ∃ (steps : List (State × Process)) (s : State),
    (processes ['a', '\n']).Run (start ['a', '\n']) steps s ∧ s.child = .killed ∧
    ((∃ more t, (processes ['a', '\n']).Run s more t ∧ s.printed.length < t.printed.length) ↔
      ∀ p ∈ steps, Heard p.1 p.2) := by
  rcases System.exists_exec step (start ['a', '\n']) [.parent, .parent, .parent, .parent]
    (fun s => decide (s.child = .killed)) (by decide) with ⟨s, hexec, hkilled⟩
  rcases System.Run.exec _ .nil hexec with ⟨steps, hrun⟩
  rw [List.nil_append] at hrun
  exact ⟨steps, s, hrun, of_decide_eq_true hkilled, prints_again_iff hrun⟩

end Missed

end ShareMem

end BlogSample
