import BlogSample.Theory.Threads
import Mathlib.Data.Finset.Insert
import Mathlib.Data.List.Count

/-!
# Files for Blocks

`_malloc` and `_free` of `memoryleak.c`, which take the place of `malloc` and
`free` when `DEBUG` is defined. A block has a file in `leak-checker` named
after its pointer, from soon after it is allocated to shortly before it is
freed. The two calls take no lock, and an address is handed out again as soon
as it is free.

That does no harm, since a file is written and removed while its block is
allocated: whoever gets the address next comes after that. It takes callers
that free a pointer once, after the call that returned it, as C asks of them.

The file of a null pointer, after an allocation that failed, is one for all of
them. Whether it is there is followed, what is in it is not. Opening a file
succeeds.

## Main definitions

* `Request`, `Line`, `Place`, `Checker`: The state.
* `goOn`: What a thread does next in `_malloc` and `_free`.
* `checker`: The runs of threads that call them.
* `Tracked`: The invariant, for one address.

## Theorems

* `Tracked.other`, `Tracked.self`: A step about something else, and one about the block.
* `tracked_goOn`, `tracked_step`: The invariant is kept.
* `files_are_blocks`: The files are those of the allocated blocks.
-/

namespace BlogSample

namespace MemoryLeak

open Transition Threads

/-- The arguments of `_malloc`. -/
structure Request where
  size : Nat
  filename : String
  line : Int
  datetime : String
  deriving DecidableEq

/-- `"[%s]_malloc [%p]:%s, %d\n"`. -/
structure Line where
  datetime : String
  ptr : Nat
  filename : String
  line : Int
  deriving DecidableEq

/-- Where a thread is: outside both calls; in `_malloc`, about to allocate, to open
    the file, or to write and close it; in `_free`, about to remove the file, or to free
    the block. -/
inductive Place
  | outside
  | allocating (r : Request)
  | opening (r : Request) (ptr : Option Nat)
  | closing (r : Request) (ptr : Option Nat)
  | unlinking (ptr : Option Nat)
  | freeing (ptr : Option Nat)
  deriving DecidableEq

/-- The allocated blocks with what was asked for, the files in `leak-checker`, the
    pointers that the program may free, the addresses there were blocks at, and the
    threads. -/
structure Checker where
  heap : Nat → Option Request
  files : Option Nat → Option (List Line)
  held : List Nat
  used : Finset Nat
  threads : List Place

/-- What is in the file of a block. -/
def report (p : Nat) (r : Request) : List Line :=
  [⟨r.datetime, p, r.filename, r.line⟩]

/-- A thread goes on to another place. -/
def Checker.move (s : Checker) (i : Nat) (place : Place) : Checker :=
  { s with threads := s.threads.set i place }

/-- What a thread does next. `malloc` returns `choice`, which is null or an address
    without a block. -/
def goOn (s : Checker) (i : Nat) (choice : Option Nat) : Place → Option Checker
  | .outside => none
  | .allocating r =>
      match choice with
      | none => some (s.move i (.opening r none))
      | some p =>
          if s.heap p = none then
            some ({ s with heap := Function.update s.heap p (some r), used := insert p s.used }.move
              i (.opening r (some p)))
          else none
  | .opening r ptr =>
      some ({ s with files := Function.update s.files ptr (some []) }.move i (.closing r ptr))
  | .closing _ none => some (s.move i .outside)
  | .closing r (some p) =>
      some ({ s with
        files := Function.update s.files (some p) (some (report p r))
        held := p :: s.held }.move i .outside)
  | .unlinking ptr =>
      some ({ s with files := Function.update s.files ptr none }.move i (.freeing ptr))
  | .freeing none => some (s.move i .outside)
  | .freeing (some p) =>
      some ({ s with heap := Function.update s.heap p none }.move i .outside)

/-- A thread calls `malloc` or `free`, or goes on. -/
inductive Action
  | malloc (i : Nat) (r : Request)
  | free (i : Nat) (ptr : Option Nat)
  | goOn (i : Nat) (choice : Option Nat)

/-- One step. A pointer is freed that was returned and has not been freed since. -/
def step (s : Checker) : Action → Option Checker
  | .malloc i r => if s.threads[i]? = some .outside then some (s.move i (.allocating r)) else none
  | .free i none =>
      if s.threads[i]? = some .outside then some (s.move i (.unlinking none)) else none
  | .free i (some p) =>
      if s.threads[i]? = some .outside ∧ p ∈ s.held then
        some ({ s with held := s.held.erase p }.move i (.unlinking (some p)))
      else none
  | .goOn i choice => (s.threads[i]?).bind (MemoryLeak.goOn s i choice)

/-- Nothing is allocated, and `leak-checker` holds what it does. -/
def Initial (old : Option Nat → Option (List Line)) (s : Checker) : Prop :=
  (∀ p, s.heap p = none) ∧ s.files = old ∧ s.held = [] ∧ s.used = ∅ ∧
    ∀ th ∈ s.threads, th = .outside

/-- The runs of threads that call the two functions. -/
def checker (old : Option Nat → Option (List Line)) : System Checker Action :=
  System.ofFn (Initial old) step

/-- A thread is in a call that is about the block at an address. -/
def about (p : Nat) : Place → Nat
  | .opening _ ptr => if ptr = some p then 1 else 0
  | .closing _ ptr => if ptr = some p then 1 else 0
  | .unlinking ptr => if ptr = some p then 1 else 0
  | .freeing ptr => if ptr = some p then 1 else 0
  | _ => 0

/-- What a thread that is in a call about the block knows of it. -/
def Agrees (s : Checker) (p : Nat) : Place → Prop
  | .opening r ptr => ptr = some p → s.heap p = some r
  | .closing r ptr => ptr = some p → s.heap p = some r
  | .unlinking ptr => ptr = some p → s.files (some p) = (s.heap p).map (report p)
  | .freeing ptr => ptr = some p → s.files (some p) = none
  | _ => True

/-- A block is held by the program or is in one call. Without a block there is no file,
    except for one that was there before. -/
structure Tracked (old : Option Nat → Option (List Line)) (s : Checker) (p : Nat) : Prop where
  count : tally (about p) s.threads + s.held.count p = if s.heap p = none then 0 else 1
  used : s.heap p ≠ none → p ∈ s.used
  held : p ∈ s.held → s.files (some p) = (s.heap p).map (report p)
  agrees : ∀ (i : Nat) (th : Place), s.threads[i]? = some th → Agrees s p th
  vacant : s.heap p = none → s.files (some p) = if p ∈ s.used then none else old (some p)

/-- A thread that is in no call about the block need not know of it. -/
theorem agrees_of_about (s : Checker) {p : Nat} {th : Place} (h : about p th = 0) :
    Agrees s p th := by
  cases th with
  | outside => trivial
  | allocating r => trivial
  | opening r ptr => exact fun hptr => absurd h (by simp only [about, if_pos hptr]; decide)
  | closing r ptr => exact fun hptr => absurd h (by simp only [about, if_pos hptr]; decide)
  | unlinking ptr => exact fun hptr => absurd h (by simp only [about, if_pos hptr]; decide)
  | freeing ptr => exact fun hptr => absurd h (by simp only [about, if_pos hptr]; decide)

/-- What a thread knows of a block it knows as long as nothing about the block changes. -/
theorem Agrees.congr {s t : Checker} {p : Nat} {th : Place} (h : Agrees s p th)
    (hheap : t.heap p = s.heap p) (hfiles : t.files (some p) = s.files (some p)) :
    Agrees t p th := by
  cases th with
  | outside => trivial
  | allocating r => trivial
  | opening r ptr => exact fun hptr => hheap.trans (h hptr)
  | closing r ptr => exact fun hptr => hheap.trans (h hptr)
  | unlinking ptr => exact fun hptr => by rw [hfiles, hheap, h hptr]
  | freeing ptr => exact fun hptr => hfiles.trans (h hptr)

section Steps

variable {old : Option Nat → Option (List Line)} {s t : Checker} {p i : Nat} {th place : Place}
  (h : Tracked old s p) (hth : s.threads[i]? = some th)
  (hthreads : t.threads = s.threads.set i place)
include h hth hthreads

/-- A step that is about something else. -/
theorem Tracked.other (hth₀ : about p th = 0) (hplace : about p place = 0)
    (hheap : t.heap p = s.heap p) (hfiles : t.files (some p) = s.files (some p))
    (hheld : t.held.count p = s.held.count p) (hused : p ∈ t.used ↔ p ∈ s.used) :
    Tracked old t p := by
  refine ⟨?_, fun hp => ?_, fun hp => ?_, ?_, fun hp => ?_⟩
  · have hset := tally_set (about p) place hth
    have hcount := h.count
    rw [hthreads, hheld, hheap]
    omega
  · rw [hheap] at hp
    exact hused.mpr (h.used hp)
  · rw [← List.count_pos_iff, hheld, List.count_pos_iff] at hp
    rw [hfiles, hheap, h.held hp]
  · rw [hthreads]
    exact forall_set (agrees_of_about t hplace)
      (fun j b _ hb => (h.agrees j b hb).congr hheap hfiles)
  · rw [hheap] at hp
    simp only [hfiles, h.vacant hp, hused]

omit h in
/-- A step about the block. No other thread is in a call about it. -/
theorem Tracked.self (hle : tally (about p) s.threads ≤ about p th)
    (hcount : about p place + t.held.count p = if t.heap p = none then 0 else 1)
    (hused : t.heap p ≠ none → p ∈ t.used)
    (hheld : p ∈ t.held → t.files (some p) = (t.heap p).map (report p))
    (hplace : Agrees t p place)
    (hvacant : t.heap p = none → t.files (some p) = if p ∈ t.used then none else old (some p)) :
    Tracked old t p := by
  have hset := tally_set (about p) place hth
  refine ⟨?_, hused, hheld, ?_, hvacant⟩
  · have hge := le_tally (about p) (List.mem_of_getElem? hth)
    rw [hthreads]
    omega
  · rw [hthreads]
    refine forall_set hplace (fun j b hj hb => agrees_of_about t ?_)
    have hadd := add_le_tally (about p) (Ne.symm hj) hth hb
    omega

end Steps

/-- At most one thread is in a call about a block, and then nobody else holds it. -/
theorem Tracked.exclusive {old : Option Nat → Option (List Line)} {s : Checker} {p i : Nat}
    {th : Place} (h : Tracked old s p) (hth : s.threads[i]? = some th) (hone : about p th = 1) :
    s.heap p ≠ none ∧ s.held.count p = 0 ∧ tally (about p) s.threads ≤ about p th := by
  have hcount := h.count
  have hle := le_tally (about p) (List.mem_of_getElem? hth)
  by_cases hheap : s.heap p = none
  · rw [if_pos hheap] at hcount
    omega
  · rw [if_neg hheap] at hcount
    exact ⟨hheap, by omega, by omega⟩

theorem Tracked.not_held {old : Option Nat → Option (List Line)} {s : Checker} {p i : Nat}
    {th : Place} (h : Tracked old s p) (hth : s.threads[i]? = some th) (hone : about p th = 1) :
    p ∉ s.held :=
  List.count_eq_zero.mp (h.exclusive hth hone).2.1

section Calls

variable {old : Option Nat → Option (List Line)} {s : Checker} {p i : Nat}
  (h : Tracked old s p)
include h

/-- A thread goes on with a call about a block, and only the file changes. -/
theorem Tracked.goesOn {th place : Place} (hth : s.threads[i]? = some th) (hone : about p th = 1)
    (hplace : about p place = 1) (file : Option (List Line))
    (hagrees : Agrees { s with files := Function.update s.files (some p) file } p place) :
    Tracked old ({ s with files := Function.update s.files (some p) file }.move i place) p := by
  rcases h.exclusive hth hone with ⟨hheap, hheld, hle⟩
  refine Tracked.self hth rfl hle ?_ h.used (fun hmem => absurd hmem (h.not_held hth hone))
    (hagrees.congr rfl rfl) (fun hnone => absurd hnone hheap)
  change about p place + s.held.count p = if s.heap p = none then 0 else 1
  rw [hplace, hheld, if_neg hheap]

/-- A block is allocated. There was none, so nobody is in a call about one. -/
theorem Tracked.allocate {r : Request} {q : Nat} (hq : s.heap q = none)
    (hth : s.threads[i]? = some (.allocating r)) :
    Tracked old ({ s with heap := Function.update s.heap q (some r), used := insert q s.used }.move
      i (.opening r (some q))) p := by
  by_cases hpq : p = q
  · subst hpq
    have hcount := h.count
    rw [if_pos hq] at hcount
    have hzero : s.held.count p = 0 := by omega
    have hnew : Function.update s.heap p (some r) p = some r := Function.update_self ..
    refine Tracked.self hth rfl (by omega) ?_ (fun _ => Finset.mem_insert_self _ _)
      (fun hmem => absurd hmem (List.count_eq_zero.mp hzero)) (fun _ => hnew) (fun hnone => ?_)
    · change about p (.opening r (some p)) + s.held.count p =
        if Function.update s.heap p (some r) p = none then 0 else 1
      rw [hnew, hzero, if_neg (Option.some_ne_none r)]
      exact if_pos rfl
    · have hcontra := hnew.symm.trans hnone
      cases hcontra
  · refine h.other hth rfl rfl (if_neg (fun heq => hpq (Option.some.inj heq).symm))
      (Function.update_of_ne hpq _ _) rfl rfl ?_
    change p ∈ insert q s.used ↔ p ∈ s.used
    rw [Finset.mem_insert, or_iff_right hpq]

/-- The file of a block is opened. -/
theorem Tracked.opens {r : Request} {ptr : Option Nat}
    (hth : s.threads[i]? = some (.opening r ptr)) :
    Tracked old ({ s with files := Function.update s.files ptr (some []) }.move i
      (.closing r ptr)) p := by
  by_cases hptr : ptr = some p
  · subst hptr
    have hplace : about p (.closing r (some p)) = 1 := if_pos rfl
    exact h.goesOn hth (if_pos rfl) hplace _ (fun _ => h.agrees i _ hth rfl)
  · exact h.other hth rfl (if_neg hptr) (if_neg hptr) rfl
      (Function.update_of_ne (Ne.symm hptr) _ _) rfl Iff.rfl

/-- The file of a block is written, and the pointer returned. -/
theorem Tracked.closes {r : Request} {q : Nat} (hth : s.threads[i]? = some (.closing r (some q))) :
    Tracked old ({ s with
      files := Function.update s.files (some q) (some (report q r))
      held := q :: s.held }.move i .outside) p := by
  by_cases hpq : q = p
  · subst hpq
    rcases h.exclusive hth (if_pos rfl) with ⟨hheap, hheld, hle⟩
    have hr : s.heap q = some r := h.agrees i _ hth rfl
    have hfile : Function.update s.files (some q) (some (report q r)) (some q) =
        (s.heap q).map (report q) := by
      rw [Function.update_self, hr, Option.map_some]
    refine Tracked.self hth rfl hle ?_ h.used (fun _ => hfile) trivial
      (fun hnone => absurd hnone hheap)
    change 0 + (q :: s.held).count q = if s.heap q = none then 0 else 1
    rw [List.count_cons_self, hheld, if_neg hheap]
  · have hptr : ¬ some q = some p := fun heq => hpq (Option.some.inj heq)
    exact h.other hth rfl (if_neg hptr) rfl rfl (Function.update_of_ne (Ne.symm hptr) _ _)
      (List.count_cons_of_ne hpq) Iff.rfl

/-- The file of a block is removed. -/
theorem Tracked.unlinks {ptr : Option Nat} (hth : s.threads[i]? = some (.unlinking ptr)) :
    Tracked old ({ s with files := Function.update s.files ptr none }.move i (.freeing ptr)) p := by
  by_cases hptr : ptr = some p
  · subst hptr
    have hplace : about p (.freeing (some p)) = 1 := if_pos rfl
    exact h.goesOn hth (if_pos rfl) hplace _ (fun _ => Function.update_self ..)
  · exact h.other hth rfl (if_neg hptr) (if_neg hptr) rfl
      (Function.update_of_ne (Ne.symm hptr) _ _) rfl Iff.rfl

/-- A block is freed. Its file was removed before. -/
theorem Tracked.frees {q : Nat} (hth : s.threads[i]? = some (.freeing (some q))) :
    Tracked old ({ s with heap := Function.update s.heap q none }.move i .outside) p := by
  by_cases hpq : p = q
  · subst hpq
    rcases h.exclusive hth (if_pos rfl) with ⟨hheap, hheld, hle⟩
    have hnone : Function.update s.heap p none p = none := Function.update_self ..
    have hfile : s.files (some p) = none := h.agrees i _ hth rfl
    refine Tracked.self hth rfl hle ?_ (fun hne => absurd hnone hne)
      (fun hmem => absurd hmem (h.not_held hth (if_pos rfl))) trivial (fun _ => ?_)
    · change 0 + s.held.count p = if Function.update s.heap p none p = none then 0 else 1
      rw [hheld, if_pos hnone]
    · change s.files (some p) = if p ∈ s.used then none else old (some p)
      rw [if_pos (h.used hheap), hfile]
  · have hptr : ¬ some q = some p := fun heq => hpq (Option.some.inj heq).symm
    exact h.other hth rfl (if_neg hptr) rfl (Function.update_of_ne hpq _ _) rfl rfl Iff.rfl

/-- `_free` is called for a block. The program held it, so nobody is in a call about it. -/
theorem Tracked.release {q : Nat} (hth : s.threads[i]? = some .outside) (hq : q ∈ s.held) :
    Tracked old ({ s with held := s.held.erase q }.move i (.unlinking (some q))) p := by
  by_cases hpq : q = p
  · subst hpq
    have hcount := h.count
    have hpos := List.count_pos_iff.mpr hq
    have hheap : s.heap q ≠ none := by
      intro hnone
      rw [if_pos hnone] at hcount
      omega
    rw [if_neg hheap] at hcount
    have hzero : (s.held.erase q).count q = 0 := by
      rw [List.count_erase_self]
      omega
    refine Tracked.self hth rfl (by omega) ?_ h.used
      (fun hmem => absurd hmem (List.count_eq_zero.mp hzero)) (fun _ => h.held hq)
      (fun hnone => absurd hnone hheap)
    change about q (.unlinking (some q)) + (s.held.erase q).count q =
      if s.heap q = none then 0 else 1
    rw [hzero, if_neg hheap]
    exact if_pos rfl
  · exact h.other hth rfl rfl (if_neg (fun heq => hpq (Option.some.inj heq))) rfl rfl
      (List.count_erase_of_ne (Ne.symm hpq)) Iff.rfl

end Calls

/-- A thread goes on. -/
theorem tracked_goOn {old : Option Nat → Option (List Line)} {s t : Checker} {p i : Nat}
    {choice : Option Nat} {th : Place} (h : Tracked old s p) (hth : s.threads[i]? = some th)
    (hgo : goOn s i choice th = some t) : Tracked old t p := by
  cases th with
  | outside => cases hgo
  | allocating r =>
      cases choice with
      -- `malloc` has failed: the file is that of a null pointer.
      | none =>
          cases hgo
          exact h.other hth rfl rfl rfl rfl rfl rfl Iff.rfl
      | some q =>
          -- The address is free, so no file is named after it.
          rcases Option.ite_none_right_eq_some.mp hgo with ⟨hq, heq⟩
          cases heq
          exact h.allocate hq hth
  | opening r ptr =>
      cases hgo
      exact h.opens hth
  | closing r ptr =>
      cases ptr with
      | none =>
          cases hgo
          exact h.other hth rfl rfl rfl rfl rfl rfl Iff.rfl
      | some q =>
          cases hgo
          exact h.closes hth
  | unlinking ptr =>
      cases hgo
      exact h.unlinks hth
  | freeing ptr =>
      cases ptr with
      | none =>
          cases hgo
          exact h.other hth rfl rfl rfl rfl rfl rfl Iff.rfl
      | some q =>
          cases hgo
          exact h.frees hth

theorem tracked_step {old : Option Nat → Option (List Line)} {s t : Checker} {p : Nat} {a : Action}
    (h : Tracked old s p) (hstep : step s a = some t) : Tracked old t p := by
  cases a with
  | malloc i r =>
      rcases Option.ite_none_right_eq_some.mp hstep with ⟨hth, heq⟩
      cases heq
      exact h.other hth rfl rfl rfl rfl rfl rfl Iff.rfl
  | free i ptr =>
      cases ptr with
      | none =>
          rcases Option.ite_none_right_eq_some.mp hstep with ⟨hth, heq⟩
          cases heq
          exact h.other hth rfl rfl rfl rfl rfl rfl Iff.rfl
      | some q =>
          rcases Option.ite_none_right_eq_some.mp hstep with ⟨⟨hth, hq⟩, heq⟩
          cases heq
          exact h.release hth hq
  | goOn i choice =>
      rcases Option.bind_eq_some_iff.mp hstep with ⟨th, hth, hgo⟩
      exact tracked_goOn h hth hgo

theorem reachable_tracked {old : Option Nat → Option (List Line)} {s : Checker}
    (h : (checker old).Reachable s) (p : Nat) : Tracked old s p := by
  refine h.invariant (fun s => Tracked old s p) (fun s hs => ?_)
    (fun s a t hs hstep => tracked_step hs hstep)
  rcases hs with ⟨hheap, hfiles, hheld, hused, hthreads⟩
  have hout {i : Nat} {th : Place} (hth : s.threads[i]? = some th) : th = .outside :=
    hthreads th (List.mem_of_getElem? hth)
  refine ⟨?_, fun hne => absurd (hheap p) hne, fun hmem => ?_, fun i th hth => ?_, fun _ => ?_⟩
  · rw [hheld, if_pos (hheap p), tally_eq_zero (fun th hth => by rw [hthreads th hth]; rfl)]
    rfl
  · rw [hheld] at hmem
    exact absurd hmem List.not_mem_nil
  · rw [hout hth]
    trivial
  · rw [hused, hfiles, if_neg (Finset.notMem_empty p)]

/-- Whatever the threads do, the file of a block that no call is about is there as long as
    the block is allocated, and says which call allocated it; files that were there before
    stay until there is a block at their address. A file that is to be removed is there. -/
theorem files_are_blocks {old : Option Nat → Option (List Line)} {s : Checker}
    (h : (checker old).Reachable s) :
    (∀ p, .unlinking (some p) ∈ s.threads → s.files (some p) ≠ none) ∧
    ∀ p, (∀ th ∈ s.threads, about p th = 0) →
      s.files (some p) = if p ∈ s.used then (s.heap p).map (report p) else old (some p) := by
  refine ⟨fun p hmem => ?_, fun p hidle => ?_⟩
  · have hp := reachable_tracked h p
    rcases List.mem_iff_getElem?.mp hmem with ⟨i, hth⟩
    have hheap := (hp.exclusive hth (if_pos rfl)).1
    rw [hp.agrees i _ hth rfl, ne_eq, Option.map_eq_none_iff]
    exact hheap
  · have hp := reachable_tracked h p
    by_cases hheap : s.heap p = none
    · rw [hp.vacant hheap, hheap, Option.map_none]
    -- The program holds the block.
    · have hcount := hp.count
      rw [if_neg hheap, tally_eq_zero hidle, Nat.zero_add] at hcount
      have hmem : p ∈ s.held := List.count_pos_iff.mp (by omega)
      rw [hp.held hmem, if_pos (hp.used hheap)]

/-- What `main` asks for in a line. -/
def request (size : Nat) (line : Int) : Request :=
  ⟨size, "memoryleak.c", line, "Mon Jan 1 00:00:00 2024"⟩

/-- Two threads: one frees a block while the other allocates one, and then the other
    gets its address. -/
def calls : List Action :=
  [.malloc 0 (request 1 110), .goOn 0 (some 16), .goOn 0 none, .goOn 0 none,
    .malloc 1 (request 2 111), .goOn 1 (some 24), .free 0 (some 16), .goOn 1 none,
    .goOn 0 none, .goOn 1 none, .goOn 0 none,
    .malloc 1 (request 4 112), .goOn 1 (some 16), .malloc 0 (request 8 113),
    .goOn 1 none, .goOn 1 none]

/-- Two threads, and an empty directory. -/
def opened : Checker :=
  ⟨fun _ => none, fun _ => none, [], ∅, [.outside, .outside]⟩

theorem initial_opened : Initial (fun _ => none) opened := by
  refine ⟨fun _ => rfl, rfl, rfl, rfl, fun th hth => ?_⟩
  exact List.eq_of_mem_replicate (n := 2) hth

/-- The files are those of the two blocks that are there. -/
theorem files_are_blocks_reused : ∃ s, (checker (fun _ => none)).Reachable s ∧
    ((∀ p, .unlinking (some p) ∈ s.threads → s.files (some p) ≠ none) ∧
      ∀ p, (∀ th ∈ s.threads, about p th = 0) →
        s.files (some p) = if p ∈ s.used then (s.heap p).map (report p) else none) ∧
    s.files (some 24) = some (report 24 (request 2 111)) ∧
    s.files (some 16) = some (report 16 (request 4 112)) := by
  have hstart : (checker (fun _ => none)).Reachable opened := .init opened initial_opened
  rcases System.exists_exec step opened calls
    (fun s => s.files (some 24) = some (report 24 (request 2 111)) ∧
      s.files (some 16) = some (report 16 (request 4 112))) (by decide) with ⟨s, hrun, hfiles⟩
  have hreach := System.reachable_of_exec calls opened s hstart hrun
  exact ⟨s, hreach, files_are_blocks hreach, of_decide_eq_true hfiles⟩

end MemoryLeak

end BlogSample
