import BlogSample.MessagePassing.Delivery

/-!
# Who Never Ends

A child that has received a `quit` removes the queue for everybody, and so does
a program that has no child because its `fork` has failed. A child that is still
in its loop then fails to receive, prints nothing and goes on, and no `quit` can
reach it any more.

## Main definitions

* `State.Gone`: A queue that is not there.
* `State.Over`: A program that has removed its queue.
* `Removed`: When a queue is gone.

## Theorems

* `gone_goes`: A queue that is gone does not come back.
* `orphan_goes`: Nothing happens to those who wait at it.
* `orphaned_iff`: Which children never end.
-/

namespace BlogSample

namespace MessagePassing

open MessageQueue Stdio Transition

variable {ι : Type} [DecidableEq ι]

section Removal

variable {args : ι → Args} {capacity : Nat} {input : ι → List Char} {s t : State ι}

/-- A queue has been removed, or has not been made. -/
def State.Gone (s : State ι) (q : Nat) : Prop :=
  ∀ messages, s.queue ≠ some (q, messages)

/-- The child of a program has ended, or the program without a child. -/
def State.Over (s : State ι) (i : ι) : Prop :=
  s.child i = .ended ∨ s.parent i = .ended

/-- A queue that is gone does not come back. -/
theorem gone_goes (hgoes : Goes args s t) {q : Nat} (hlt : q < s.next) (hgone : s.Gone q) :
    q < t.next ∧ t.Gone q := by
  cases hgoes with
  | join i q' messages hnone hqueue => exact ⟨hlt, hgone⟩
  | create i hnone hqueue =>
      refine ⟨Nat.lt_succ_of_lt hlt, fun messages hq => ?_⟩
      exact absurd (Prod.mk.inj (Option.some.inj hq)).1.symm (Nat.ne_of_lt hlt)
  | fork i q' hmsgid hparent => exact ⟨hlt, hgone⟩
  | unforked i q' hmsgid hparent => exact ⟨hlt, hgone⟩
  | release i q' hmsgid hparent =>
      exact ⟨hlt, fun messages hq => hgone messages (Option.filter_eq_some_iff.mp hq).1⟩
  | receive i q' messages rest type text hmsgid hchild hqueue htakes hreceive =>
      refine ⟨hlt, fun messages' hq => ?_⟩
      rw [(Prod.mk.inj (Option.some.inj hq)).1] at hqueue
      exact hgone messages hqueue
  | fail => exact ⟨hlt, hgone⟩
  | remove i q' hmsgid hchild =>
      exact ⟨hlt, fun messages hq => hgone messages (Option.filter_eq_some_iff.mp hq).1⟩
  | read i q' line rest hmsgid hparent hfgets => exact ⟨hlt, hgone⟩
  | eof i q' hmsgid hparent hstdin => exact ⟨hlt, hgone⟩
  | send i q' messages text hmsgid hparent hqueue hsendId =>
      refine ⟨hlt, fun messages' hq => ?_⟩
      rw [(Prod.mk.inj (Option.some.inj hq)).1] at hqueue
      exact hgone messages hqueue
  | lose i q' text hmsgid hparent hlost => exact ⟨hlt, hgone⟩

/-- A child that receives from a queue that is gone has nothing to wait for. -/
theorem orphan_goes (hgoes : Goes args s t) {i : ι} {q : Nat} (hi : s.msgid i = some q)
    (hchild : s.child i = .msgrcv) (hs : Started s) (hgone : s.Gone q) :
    t.msgid i = some q ∧ t.child i = .msgrcv ∧
      texts (Entry.Of i) t.received = texts (Entry.Of i) s.received := by
  cases hgoes with
  | join j q' messages hnone hqueue => exact ⟨update_of_some hnone hi, hchild, rfl⟩
  | create j hnone hqueue => exact ⟨update_of_some hnone hi, hchild, rfl⟩
  | fork j q' hmsgid hparent =>
      -- The parent of `i` has forked already.
      have hne : i ≠ j := by
        rintro rfl
        rw [hs.childless i hparent] at hchild
        cases hchild
      exact ⟨hi, (Function.update_of_ne hne _ _).trans hchild, rfl⟩
  | unforked j q' hmsgid hparent => exact ⟨hi, hchild, rfl⟩
  | release j q' hmsgid hparent => exact ⟨hi, hchild, rfl⟩
  | receive j q' messages rest type text hmsgid _ hqueue htakes hreceive =>
      -- Nothing can be received from a queue that is gone.
      have hne : i ≠ j := by
        rintro rfl
        rw [hi, Option.some.injEq] at hmsgid
        exact hgone messages (hmsgid ▸ hqueue)
      refine ⟨hi, ?_, ?_⟩
      · exact (Function.update_of_ne hne _ _).trans hchild
      · change texts _ (s.received ++ _) = _
        rw [texts_append_of, if_neg hne.symm]
  | fail => exact ⟨hi, hchild, rfl⟩
  | remove j q' hmsgid hchild' =>
      -- `i` is still in its loop, so it is not the one that removes a queue.
      have hne : i ≠ j := by
        rintro rfl
        rw [hchild] at hchild'
        cases hchild'
      exact ⟨hi, (Function.update_of_ne hne _ _).trans hchild, rfl⟩
  | read j q' line rest hmsgid hparent hfgets => exact ⟨hi, hchild, rfl⟩
  | eof j q' hmsgid hparent hstdin => exact ⟨hi, hchild, rfl⟩
  | send j q' messages text hmsgid hparent hqueue hsendId => exact ⟨hi, hchild, rfl⟩
  | lose j q' text hmsgid hparent hlost => exact ⟨hi, hchild, rfl⟩

/-- Who has been started has a queue that is gone if and only if one of its
    programs is over. -/
def Removed (s : State ι) : Prop :=
  ∀ i q, s.msgid i = some q → (s.Gone q ↔ ∃ j, s.msgid j = some q ∧ s.Over j)

omit [DecidableEq ι] in
theorem gone_iff (q : Nat) (messages : List (Int × List Char))
    (hqueue : s.queue = some (q, messages)) (q' : Nat) : s.Gone q' ↔ q' ≠ q := by
  constructor
  · rintro hgone rfl
    exact hgone messages hqueue
  · intro hne messages' hq
    rw [hqueue, Option.some.injEq, Prod.mk.injEq] at hq
    exact hne hq.1.symm

omit [DecidableEq ι] in
/-- A program that has not been started is not over. -/
theorem Started.not_over (h : Started s) {i : ι} (hnone : s.msgid i = none) : ¬ s.Over i := by
  have hparent := h.idle i hnone
  rintro (hended | hended)
  · rw [h.childless i hparent] at hended
    cases hended
  · rw [hparent] at hended
    cases hended

/-- Nor is it when it is started. -/
theorem Started.over_start (h : Started s) {i : ι} (hnone : s.msgid i = none) (x : Option Nat)
    (q : Nat) :
    (∃ j, Function.update s.msgid i x j = some q ∧ s.Over j) ↔
      ∃ j, s.msgid j = some q ∧ s.Over j := by
  constructor
  · rintro ⟨j, hj, hover⟩
    have hji : j ≠ i := by
      rintro rfl
      exact h.not_over hnone hover
    exact ⟨j, (Function.update_of_ne hji x s.msgid) ▸ hj, hover⟩
  · rintro ⟨j, hj, hover⟩
    exact ⟨j, update_of_some hnone hj, hover⟩

/-- An update from one value to another that are both not the given one. -/
theorem update_eq_iff {β : Type} {f : ι → β} {i j : ι} {x y : β} (hx : x ≠ y) (hf : f i ≠ y) :
    Function.update f i x j = y ↔ f j = y := by
  by_cases hji : j = i
  · rw [hji, Function.update_self]
    exact iff_of_false hx hf
  · rw [Function.update_of_ne hji]

omit [DecidableEq ι] in
/-- A step in which nobody is over and the queues stay. -/
theorem Removed.stay (h : Removed s) (hmsgid : t.msgid = s.msgid)
    (hgone : ∀ q, t.Gone q ↔ s.Gone q) (hover : ∀ j, t.Over j ↔ s.Over j) : Removed t := by
  intro k q hk
  rw [hmsgid] at hk
  rw [hgone, h k q hk, hmsgid]
  exact exists_congr (fun j => and_congr_right (fun _ => (hover j).symm))

omit [DecidableEq ι] in
/-- A step in which a program removes its queue. -/
theorem Removed.over (h : Removed s) {i : ι} {q : Nat} (hi : s.msgid i = some q)
    (hmsgid : t.msgid = s.msgid) (hqueue : t.queue = s.queue.filter (fun x => x.1 ≠ q))
    (hover : t.Over i) (hothers : ∀ j, j ≠ i → (t.Over j ↔ s.Over j)) : Removed t := by
  intro k q' hk
  rw [hmsgid] at hk
  have hgone : t.Gone q' ↔ s.Gone q' ∨ q' = q := by
    unfold State.Gone
    rw [hqueue]
    constructor
    · intro hgone
      by_cases hq : q' = q
      · exact Or.inr hq
      · exact Or.inl (fun messages hs =>
          hgone messages (Option.filter_eq_some_iff.mpr ⟨hs, decide_eq_true hq⟩))
    · rintro (hgone | rfl) messages hs
      · exact hgone messages (Option.filter_eq_some_iff.mp hs).1
      · exact absurd rfl (of_decide_eq_true (Option.filter_eq_some_iff.mp hs).2)
  rw [hgone, hmsgid]
  by_cases hq : q' = q
  · exact iff_of_true (Or.inr hq) ⟨i, hq ▸ hi, hover⟩
  · rw [h k q' hk, or_iff_left hq]
    refine exists_congr (fun j => and_congr_right (fun hj => (hothers j ?_).symm))
    rintro rfl
    rw [hi, Option.some.injEq] at hj
    exact hq hj.symm

theorem Removed.goes (h : Removed s) (hs : Inv args input s) (hgoes : Goes args s t) :
    Removed t := by
  cases hgoes with
  | join i q messages hnone hqueue =>
      intro k q' hk
      change s.Gone q' ↔ ∃ j, Function.update s.msgid i (some q) j = some q' ∧ s.Over j
      rw [hs.started.over_start hnone]
      by_cases hki : k = i
      · subst hki
        change Function.update s.msgid k (some q) k = some q' at hk
        rw [Function.update_self, Option.some.injEq] at hk
        subst hk
        -- The queue is there, so none of its programs is over.
        refine iff_of_false (fun hgone => hgone messages hqueue) ?_
        rintro ⟨j, hj, hover⟩
        exact (h j q hj).mpr ⟨j, hj, hover⟩ messages hqueue
      · exact h k q' ((Function.update_of_ne hki (some q) s.msgid) ▸ hk)
  | create i hnone hqueue =>
      intro k q' hk
      change _ ↔ ∃ j, Function.update s.msgid i (some s.next) j = some q' ∧ s.Over j
      rw [hs.started.over_start hnone, gone_iff s.next [] rfl]
      by_cases hki : k = i
      · subst hki
        change Function.update s.msgid k (some s.next) k = some q' at hk
        rw [Function.update_self, Option.some.injEq] at hk
        -- Nobody has had the new number.
        refine iff_of_false (fun hne => hne hk.symm) ?_
        rintro ⟨j, hj, -⟩
        exact absurd (hs.numbered.msgid_lt j q' hj) (by omega)
      · have hk' : s.msgid k = some q' := (Function.update_of_ne hki (some s.next) s.msgid) ▸ hk
        refine iff_of_true (Nat.ne_of_lt (hs.numbered.msgid_lt k q' hk')) ((h k q' hk').mp ?_)
        intro messages hq
        rw [hqueue] at hq
        cases hq
  | fork i q hmsgid hparent =>
      refine h.stay rfl (fun _ => Iff.rfl) (fun j => or_congr ?_ ?_)
      · exact update_eq_iff nofun (by rw [hs.started.childless i hparent]; exact nofun)
      · exact update_eq_iff nofun (by rw [hparent]; exact nofun)
  | unforked i q hmsgid hparent =>
      refine h.stay rfl (fun _ => Iff.rfl) (fun j => or_congr Iff.rfl ?_)
      exact update_eq_iff nofun (by rw [hparent]; exact nofun)
  | release i q hmsgid hparent =>
      refine h.over hmsgid rfl rfl (Or.inr (Function.update_self _ _ _)) (fun j hji => ?_)
      exact or_congr Iff.rfl (Eq.congr_left (Function.update_of_ne hji _ _))
  | receive i q messages rest type text hmsgid hchild hqueue htakes hreceive =>
      refine h.stay rfl (fun q' => ?_) (fun j => or_congr ?_ Iff.rfl)
      · rw [gone_iff q messages hqueue, gone_iff q rest rfl]
      · refine update_eq_iff ?_ (by rw [hchild]; exact nofun)
        split <;> exact nofun
  | fail => exact h
  | remove i q hmsgid hchild =>
      refine h.over hmsgid rfl rfl (Or.inl (Function.update_self _ _ _)) (fun j hji => ?_)
      exact or_congr (Eq.congr_left (Function.update_of_ne hji _ _)) Iff.rfl
  | read i q line rest hmsgid hparent hfgets =>
      refine h.stay rfl (fun _ => Iff.rfl) (fun j => or_congr Iff.rfl ?_)
      exact update_eq_iff nofun (by rw [hparent]; exact nofun)
  | eof i q hmsgid hparent hstdin =>
      refine h.stay rfl (fun _ => Iff.rfl) (fun j => or_congr Iff.rfl ?_)
      exact update_eq_iff nofun (by rw [hparent]; exact nofun)
  | send i q messages text hmsgid hparent hqueue hsendId =>
      refine h.stay rfl (fun q' => ?_) (fun j => or_congr Iff.rfl ?_)
      · rw [gone_iff q messages hqueue, gone_iff q (messages ++ [((args i).sendId, text)]) rfl]
      · exact update_eq_iff nofun (by rw [hparent]; exact nofun)
  | lose i q text hmsgid hparent hlost =>
      refine h.stay rfl (fun _ => Iff.rfl) (fun j => or_congr Iff.rfl ?_)
      exact update_eq_iff nofun (by rw [hparent]; exact nofun)

theorem reachable_removed (h : (programs args capacity input).Reachable s) :
    Inv args input s ∧ Removed s := by
  refine ⟨reachable_inv h, ?_⟩
  induction h with
  | init s hs =>
      subst hs
      exact nofun
  | step s e t hs hst ih => exact ih.goes (reachable_inv hs) (goes_of_step hst)

/-- A child goes on until it has received a `quit`. Once a child has ended, or a
    program without a child, the queue is gone, and not before; and from then on
    the other children of the queue that have not received a `quit` receive
    nothing and never end. -/
theorem orphaned_iff (h : (programs args capacity input).Reachable s) {i : ι} {q : Nat}
    (hi : s.msgid i = some q) :
    (s.child i ≠ .none →
      (s.child i = .msgrcv ↔ ∀ x ∈ texts (Entry.Of i) s.received, ¬ Quits x)) ∧
    ((∀ messages, s.queue ≠ some (q, messages)) ↔
      ∃ j, s.msgid j = some q ∧ (s.child j = .ended ∨ s.parent j = .ended)) ∧
    ((∀ messages, s.queue ≠ some (q, messages)) → s.child i = .msgrcv →
      ∀ more t, (programs args capacity input).Run s more t →
        t.child i = .msgrcv ∧ texts (Entry.Of i) t.received = texts (Entry.Of i) s.received) := by
  rcases reachable_removed h with ⟨hinv, hremoved⟩
  refine ⟨fun hborn => ?_, hremoved i q hi, fun hgone hchild more t hrun => ?_⟩
  -- A child that is not in its loop has got a `quit`.
  · have hquits := hinv.quits i
    constructor
    · intro hchild
      rw [hchild] at hquits
      exact hquits
    · intro hnone
      have hnever : ¬ ∃ before x, texts (Entry.Of i) s.received = before ++ [x] ∧ Quits x ∧
          ∀ y ∈ before, ¬ Quits y := by
        rintro ⟨before, x, happend, hquit, -⟩
        exact hnone x (happend ▸ List.mem_append_right _ (List.mem_singleton_self x)) hquit
      cases hchild : s.child i with
      | none => exact absurd hchild hborn
      | msgrcv => rfl
      | msgctl =>
          rw [hchild] at hquits
          exact absurd hquits hnever
      | ended =>
          rw [hchild] at hquits
          exact absurd hquits hnever
  -- By induction on the rest of the run, in which the queue stays gone.
  · have hall : (programs args capacity input).Reachable t ∧ t.msgid i = some q ∧
        t.child i = .msgrcv ∧ texts (Entry.Of i) t.received = texts (Entry.Of i) s.received ∧
        q < t.next ∧ t.Gone q := by
      induction hrun with
      | nil => exact ⟨h, hi, hchild, rfl, hinv.numbered.msgid_lt i q hi, hgone⟩
      | snoc more s' e t _ hst ih =>
          rcases ih with ⟨hreach, hi', hchild', hsame, hlt, hgone'⟩
          have hgoes := goes_of_step hst
          rcases orphan_goes hgoes hi' hchild' (reachable_inv hreach).started hgone' with
            ⟨hi'', hchild'', hsame'⟩
          exact ⟨.step s' e t hreach hst, hi'', hchild'', hsame'.trans hsame,
            gone_goes hgoes hlt hgone'⟩
    exact ⟨hall.2.2.1, hall.2.2.2.1⟩

/-- The first gets a `quit` and removes the queue that the second waits at. -/
theorem orphaned_iff_quit : ∃ s, (programs threeWays 16384 dialogue).Reachable s ∧
    s.child 0 = .ended ∧ s.child 1 = .msgrcv ∧
    ((s.child 1 ≠ .none →
      (s.child 1 = .msgrcv ↔ ∀ x ∈ texts (Entry.Of 1) s.received, ¬ Quits x)) ∧
    ((∀ messages, s.queue ≠ some (0, messages)) ↔
      ∃ j, s.msgid j = some 0 ∧ (s.child j = .ended ∨ s.parent j = .ended)) ∧
    ((∀ messages, s.queue ≠ some (0, messages)) → s.child 1 = .msgrcv →
      ∀ more t, (programs threeWays 16384 dialogue).Run s more t →
        t.child 1 = .msgrcv ∧
          texts (Entry.Of 1) t.received = texts (Entry.Of 1) s.received)) := by
  rcases System.exists_exec (step threeWays 16384) (start dialogue)
    [.start 0, .start 1, .fork 0 true, .fork 1 true, .fgets 0, .msgsnd 0, .msgrcv 1, .fgets 1,
      .msgsnd 1, .msgrcv 0, .msgctl 0]
    (fun s => decide (s.msgid 1 = some 0 ∧ s.child 0 = .ended ∧ s.child 1 = .msgrcv))
    (by decide +kernel) with ⟨s, hexec, hend⟩
  rcases of_decide_eq_true hend with ⟨hmsgid, hended, hwaits⟩
  have h : (programs threeWays 16384 dialogue).Reachable s :=
    System.reachable_of_exec _ _ _ (.init _ rfl) hexec
  exact ⟨s, h, hended, hwaits, orphaned_iff h hmsgid⟩

end Removal

end MessagePassing

end BlogSample
