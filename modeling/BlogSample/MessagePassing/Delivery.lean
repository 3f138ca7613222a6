import BlogSample.MessagePassing.TwoWay

/-!
# What Is Received

While a queue is there, what has been received of a type is what was sent first
under it, and the rest is in the queue, in order; when it is removed, the rest
is lost. The queues are numbered, so a program that is started after that is
not taken for one of the old ones.

Where one program alone sends under a type and one alone receives it, the two
are told apart by their types alone, and what the second prints is a prefix of
the input of the first. A program whose type is not positive, as an `int`,
receives several types.

## Main definitions

* `Entry.On`, `Entry.Of`, `texts`: What has been sent or received.
* `Numbered`, `Started`: The numbers of the queues, and who has a child.
* `Fifo`: The order on a queue.
* `QuitsLast`: What a child has received.
* `Lines`: What a parent has sent.
* `Inv`: The invariant.

## Theorems

* `reachable_inv`: The invariant holds.
* `received_prefix`: What is received of what was sent.
-/

namespace BlogSample

namespace MessagePassing

open MessageQueue Stdio Transition

variable {ι : Type} [DecidableEq ι]

/-! ### What has been sent and received -/

/-- The texts of some entries, in order. -/
def texts (p : Entry ι → Prop) [DecidablePred p] (log : List (Entry ι)) : List (List Char) :=
  (log.filter (fun e => p e)).map Entry.text

/-- An entry is on a queue, under a type. -/
def Entry.On (q : Nat) (t : Int) (e : Entry ι) : Prop := e.queue = q ∧ e.type = t

/-- An entry is of a program. -/
def Entry.Of (i : ι) (e : Entry ι) : Prop := e.program = i

instance (q : Nat) (t : Int) : DecidablePred (Entry.On (ι := ι) q t) := fun e =>
  inferInstanceAs (Decidable (e.queue = q ∧ e.type = t))

instance (i : ι) : DecidablePred (Entry.Of i) := fun e =>
  inferInstanceAs (Decidable (e.program = i))

omit [DecidableEq ι] in
theorem texts_append (p : Entry ι → Prop) [DecidablePred p] (log : List (Entry ι)) (e : Entry ι) :
    texts p (log ++ [e]) = if p e then texts p log ++ [e.text] else texts p log := by
  unfold texts
  rw [List.filter_append, List.map_append]
  by_cases h : p e
  · rw [if_pos h, List.filter_cons_of_pos (by simpa using h)]
    rfl
  · rw [if_neg h, List.filter_cons_of_neg (by simpa using h), List.filter_nil, List.map_nil,
      List.append_nil]

theorem texts_append_of (q : Nat) (t : Int) (i : ι) (text : List Char) (log : List (Entry ι))
    (j : ι) :
    texts (Entry.Of j) (log ++ [⟨q, t, i, text⟩]) =
      if i = j then texts (Entry.Of j) log ++ [text] else texts (Entry.Of j) log :=
  texts_append (Entry.Of j) log ⟨q, t, i, text⟩

omit [DecidableEq ι] in
theorem texts_eq_nil {p : Entry ι → Prop} [DecidablePred p] {log : List (Entry ι)}
    (h : ∀ e ∈ log, ¬ p e) : texts p log = [] := by
  unfold texts
  rw [List.map_eq_nil_iff, List.filter_eq_nil_iff]
  exact fun e he hp => h e he (of_decide_eq_true hp)

omit [DecidableEq ι] in
theorem texts_congr {p p' : Entry ι → Prop} [DecidablePred p] [DecidablePred p']
    {log : List (Entry ι)} (h : ∀ e ∈ log, (p e ↔ p' e)) : texts p log = texts p' log := by
  unfold texts
  rw [List.filter_congr (fun e he => decide_eq_decide.mpr (h e he))]

/-- The queues are numbered, and a program sends and receives on the queue that
    it has got, under its types. -/
structure Numbered (args : ι → Args) (s : State ι) : Prop where
  queue_lt : ∀ q messages, s.queue = some (q, messages) → q < s.next
  msgid_lt : ∀ i q, s.msgid i = some q → q < s.next
  sent : ∀ e ∈ s.sent, s.msgid e.program = some e.queue ∧ e.type = (args e.program).sendId
  received : ∀ e ∈ s.received,
    s.msgid e.program = some e.queue ∧ Takes (args e.program).msgtyp e.type

/-- A program that has not been started has not forked, and one that has not
    forked has no child. -/
structure Started (s : State ι) : Prop where
  idle : ∀ i, s.msgid i = none → s.parent i = .fork
  childless : ∀ i, s.parent i = .fork → s.child i = .none

section Invariant

variable {args : ι → Args} {capacity : Nat} {input : ι → List Char} {s t : State ι}

/-- A program that is started is not one that has been. -/
theorem update_of_some {i j : ι} {q : Nat} {x : Option Nat} (hi : s.msgid i = none)
    (hj : s.msgid j = some q) : Function.update s.msgid i x j = some q := by
  by_cases hji : j = i
  · rw [hji, hi] at hj
    cases hj
  · rw [Function.update_of_ne hji, hj]

theorem Numbered.goes (h : Numbered args s) (hgoes : Goes args s t) : Numbered args t := by
  cases hgoes with
  | join i q messages hnone hqueue =>
      -- Nobody who is started has sent anything, so the record is of the others.
      refine ⟨h.queue_lt, fun j q' hj => ?_,
        fun e he => ⟨update_of_some hnone (h.sent e he).1, (h.sent e he).2⟩,
        fun e he => ⟨update_of_some hnone (h.received e he).1, (h.received e he).2⟩⟩
      by_cases hji : j = i
      · subst hji
        change Function.update s.msgid j (some q) j = some q' at hj
        rw [Function.update_self, Option.some.injEq] at hj
        exact hj ▸ h.queue_lt q messages hqueue
      · exact h.msgid_lt j q' ((Function.update_of_ne hji (some q) s.msgid) ▸ hj)
  | create i hnone hqueue =>
      -- The queue that is made has the number `s.next`, which is not in use.
      refine ⟨fun q messages hq => ?_, fun j q' hj => ?_,
        fun e he => ⟨update_of_some hnone (h.sent e he).1, (h.sent e he).2⟩,
        fun e he => ⟨update_of_some hnone (h.received e he).1, (h.received e he).2⟩⟩
      · rw [← (Prod.mk.inj (Option.some.inj hq)).1]
        exact Nat.lt_succ_self _
      · by_cases hji : j = i
        · subst hji
          change Function.update s.msgid j (some s.next) j = some q' at hj
          rw [Function.update_self, Option.some.injEq] at hj
          exact hj ▸ Nat.lt_succ_self _
        · exact Nat.lt_succ_of_lt
            (h.msgid_lt j q' ((Function.update_of_ne hji (some s.next) s.msgid) ▸ hj))
  | fork i q hmsgid hparent => exact ⟨h.queue_lt, h.msgid_lt, h.sent, h.received⟩
  | unforked i q hmsgid hparent => exact ⟨h.queue_lt, h.msgid_lt, h.sent, h.received⟩
  | release i q hmsgid hparent =>
      exact ⟨fun q' messages hq => h.queue_lt q' messages (Option.filter_eq_some_iff.mp hq).1,
        h.msgid_lt, h.sent, h.received⟩
  | receive i q messages rest type text hmsgid hchild hqueue htakes hreceive =>
      refine ⟨fun q' messages' hq => ?_, h.msgid_lt, h.sent, fun e he => ?_⟩
      · rw [← (Prod.mk.inj (Option.some.inj hq)).1]
        exact h.queue_lt q messages hqueue
      -- What is new was taken from the queue of the program, under its type.
      · rcases List.mem_append.mp he with he | he
        · exact h.received e he
        · rw [List.mem_singleton.mp he]
          exact ⟨hmsgid, htakes⟩
  | fail => exact h
  | remove i q hmsgid hchild =>
      exact ⟨fun q' messages hq => h.queue_lt q' messages (Option.filter_eq_some_iff.mp hq).1,
        h.msgid_lt, h.sent, h.received⟩
  | read i q line rest hmsgid hparent hfgets =>
      exact ⟨h.queue_lt, h.msgid_lt, h.sent, h.received⟩
  | eof i q hmsgid hparent hstdin =>
      exact ⟨h.queue_lt, h.msgid_lt, h.sent, h.received⟩
  | send i q messages text hmsgid hparent hqueue hsendId =>
      refine ⟨fun q' messages' hq => ?_, h.msgid_lt, fun e he => ?_, h.received⟩
      · rw [← (Prod.mk.inj (Option.some.inj hq)).1]
        exact h.queue_lt q messages hqueue
      -- What is new was sent on the queue of the program, under its type.
      · rcases List.mem_append.mp he with he | he
        · exact h.sent e he
        · rw [List.mem_singleton.mp he]
          exact ⟨hmsgid, rfl⟩
  | lose i q text hmsgid hparent hlost =>
      exact ⟨h.queue_lt, h.msgid_lt, h.sent, h.received⟩

/-- A program is started. -/
theorem Started.start (h : Started s) {i : ι} {q : Nat}
    (hmsgid : t.msgid = Function.update s.msgid i (some q)) (hparent : t.parent = s.parent)
    (hchild : t.child = s.child) : Started t := by
  refine ⟨fun j hj => ?_, hparent ▸ hchild ▸ h.childless⟩
  rw [hmsgid] at hj
  by_cases hji : j = i
  · rw [hji, Function.update_self] at hj
    cases hj
  · rw [hparent]
    exact h.idle j ((Function.update_of_ne hji _ s.msgid) ▸ hj)

/-- A program that has been started goes on, and does not come back to its
    `fork`. -/
theorem Started.goOn (h : Started s) {i : ι} {q : Nat} {p : Parent} (hi : s.msgid i = some q)
    (hmsgid : t.msgid = s.msgid) (hparent : t.parent = Function.update s.parent i p)
    (hp : p ≠ .fork) (hchild : ∀ j, j ≠ i → t.child j = s.child j) : Started t := by
  refine ⟨fun j hj => ?_, fun j hj => ?_⟩
  · rw [hmsgid] at hj
    have hji : j ≠ i := by
      rintro rfl
      rw [hi] at hj
      cases hj
    rw [hparent, Function.update_of_ne hji]
    exact h.idle j hj
  · rw [hparent] at hj
    by_cases hji : j = i
    · rw [hji, Function.update_self] at hj
      exact absurd hj hp
    · rw [Function.update_of_ne hji] at hj
      rw [hchild j hji]
      exact h.childless j hj

/-- A child goes on. -/
theorem Started.child (h : Started s) {i : ι} {c : Child} (hi : s.child i ≠ .none)
    (hmsgid : t.msgid = s.msgid) (hparent : t.parent = s.parent)
    (hchild : t.child = Function.update s.child i c) : Started t := by
  refine ⟨fun j hj => hparent ▸ h.idle j (hmsgid ▸ hj), fun j hj => ?_⟩
  have hnone := h.childless j (hparent ▸ hj)
  have hji : j ≠ i := by
    rintro rfl
    exact hi hnone
  rw [hchild, Function.update_of_ne hji]
  exact hnone

theorem Started.goes (h : Started s) (hgoes : Goes args s t) : Started t := by
  cases hgoes with
  | join i q messages hnone hqueue => exact h.start rfl rfl rfl
  | create i hnone hqueue => exact h.start rfl rfl rfl
  | fork i q hmsgid hparent =>
      exact h.goOn hmsgid rfl rfl nofun (fun j hji => Function.update_of_ne hji _ _)
  | unforked i q hmsgid hparent => exact h.goOn hmsgid rfl rfl nofun (fun _ _ => rfl)
  | release i q hmsgid hparent => exact h.goOn hmsgid rfl rfl nofun (fun _ _ => rfl)
  | receive i q messages rest type text hmsgid hchild hqueue htakes hreceive =>
      exact h.child (by rw [hchild]; exact nofun) rfl rfl rfl
  | fail => exact h
  | remove i q hmsgid hchild => exact h.child (by rw [hchild]; exact nofun) rfl rfl rfl
  | read i q line rest hmsgid hparent hfgets =>
      exact h.goOn hmsgid rfl rfl nofun (fun _ _ => rfl)
  | eof i q hmsgid hparent hstdin => exact h.goOn hmsgid rfl rfl nofun (fun _ _ => rfl)
  | send i q messages text hmsgid hparent hqueue hsendId =>
      exact h.goOn hmsgid rfl rfl nofun (fun _ _ => rfl)
  | lose i q text hmsgid hparent hlost => exact h.goOn hmsgid rfl rfl nofun (fun _ _ => rfl)

/-- What has been received is what was sent first, and the rest is in the
    queue, if it has not been removed. -/
structure Fifo (s : State ι) : Prop where
  kept : ∀ q t, texts (Entry.On q t) s.received <+: texts (Entry.On q t) s.sent
  rest : ∀ q messages, s.queue = some (q, messages) → ∀ t,
    texts (Entry.On q t) s.sent = texts (Entry.On q t) s.received ++ ofType t messages

theorem Fifo.goes (h : Fifo s) (hs : Numbered args s) (hgoes : Goes args s t) : Fifo t := by
  cases hgoes with
  | join i q messages hnone hqueue => exact ⟨h.kept, h.rest⟩
  | create i hnone hqueue =>
      refine ⟨h.kept, fun q messages hq t => ?_⟩
      rcases Prod.mk.inj (Option.some.inj hq) with ⟨rfl, rfl⟩
      -- Nobody has used the number yet.
      have hsent : texts (Entry.On s.next t) s.sent = [] := texts_eq_nil (fun e he hon =>
        Nat.lt_irrefl _ (hon.1 ▸ hs.msgid_lt _ _ (hs.sent e he).1))
      have hreceived : texts (Entry.On s.next t) s.received = [] :=
        texts_eq_nil (fun e he hon =>
          Nat.lt_irrefl _ (hon.1 ▸ hs.msgid_lt _ _ (hs.received e he).1))
      rw [hsent, hreceived]
      rfl
  | fork i q hmsgid hparent => exact ⟨h.kept, h.rest⟩
  | unforked i q hmsgid hparent => exact ⟨h.kept, h.rest⟩
  | release i q hmsgid hparent =>
      exact ⟨h.kept, fun q' messages hq => h.rest q' messages (Option.filter_eq_some_iff.mp hq).1⟩
  | receive i q messages rest type text hmsgid hchild hqueue htakes hreceive =>
      have hrest : ∀ t, texts (Entry.On q t) s.sent =
          texts (Entry.On q t) (s.received ++ [⟨q, type, i, text⟩]) ++ ofType t rest := by
        intro t
        rw [h.rest q messages hqueue t, ofType_receive hreceive, texts_append]
        by_cases ht : type = t
        · rw [if_pos ht, if_pos ⟨rfl, ht⟩, List.append_assoc]
          rfl
        · rw [if_neg ht, if_neg (fun hon => ht hon.2)]
      refine ⟨fun q' t => ?_, fun q' messages' hq t => ?_⟩
      · by_cases hq : q' = q
        · rw [hq]
          exact (hrest t) ▸ List.prefix_append _ _
        · change texts _ (s.received ++ _) <+: texts _ s.sent
          rw [texts_append, if_neg (fun hon => hq hon.1.symm)]
          exact h.kept q' t
      · rcases Prod.mk.inj (Option.some.inj hq) with ⟨rfl, rfl⟩
        exact hrest t
  | fail => exact h
  | remove i q hmsgid hchild =>
      exact ⟨h.kept, fun q' messages hq => h.rest q' messages (Option.filter_eq_some_iff.mp hq).1⟩
  | read i q line rest hmsgid hparent hfgets => exact ⟨h.kept, h.rest⟩
  | eof i q hmsgid hparent hstdin => exact ⟨h.kept, h.rest⟩
  | send i q messages text hmsgid hparent hqueue hsendId =>
      refine ⟨fun q' t => ?_, fun q' messages' hq t => ?_⟩
      · change texts _ s.received <+: texts _ (s.sent ++ _)
        rw [texts_append]
        split
        · exact (h.kept q' t).trans (List.prefix_append _ _)
        · exact h.kept q' t
      · rcases Prod.mk.inj (Option.some.inj hq) with ⟨rfl, rfl⟩
        change texts _ (s.sent ++ _) = _
        rw [texts_append, ofType_send, h.rest q messages hqueue t]
        by_cases ht : (args i).sendId = t
        · rw [if_pos ⟨rfl, ht⟩, if_pos ht, List.append_assoc]
        · rw [if_neg (fun hon => ht hon.2), if_neg ht]
  | lose i q text hmsgid hparent hlost => exact ⟨h.kept, h.rest⟩

/-- A child goes on until it has received its first `quit`, which is its last
    message. Without a child nothing is received. -/
def QuitsLast (child : Child) (received : List (List Char)) : Prop :=
  match child with
  | .none => received = []
  | .msgrcv => ∀ x ∈ received, ¬ Quits x
  | _ => ∃ before x, received = before ++ [x] ∧ Quits x ∧ ∀ y ∈ before, ¬ Quits y

theorem quitsLast_goes (hs : Started s)
    (h : ∀ j, QuitsLast (s.child j) (texts (Entry.Of j) s.received)) (hgoes : Goes args s t)
    (j : ι) :
    QuitsLast (t.child j) (texts (Entry.Of j) t.received) := by
  have hj := h j
  cases hgoes with
  | join i q messages hnone hqueue => exact hj
  | create i hnone hqueue => exact hj
  | fork i q hmsgid hparent =>
      change QuitsLast (Function.update s.child i _ j) _
      by_cases hji : j = i
      -- What a child is born with is nothing.
      · subst hji
        rw [hs.childless j hparent] at hj
        have hempty : texts (Entry.Of j) s.received = [] := hj
        rw [Function.update_self, hempty]
        exact nofun
      · rw [Function.update_of_ne hji]
        exact hj
  | unforked i q hmsgid hparent => exact hj
  | release i q hmsgid hparent => exact hj
  | receive i q messages rest type text hmsgid hchild hqueue htakes hreceive =>
      change QuitsLast (Function.update s.child i _ j) (texts _ (s.received ++ _))
      rw [texts_append_of]
      by_cases hji : j = i
      · subst hji
        rw [Function.update_self, if_pos rfl]
        rw [hchild] at hj
        -- A `quit` is the last text, and one that is none leaves the child in its loop.
        by_cases hquits : Quits text
        · rw [if_pos hquits]
          exact ⟨_, text, rfl, hquits, hj⟩
        · rw [if_neg hquits]
          intro x hx
          rcases List.mem_append.mp hx with hx | hx
          · exact hj x hx
          · rw [List.mem_singleton.mp hx]
            exact hquits
      · rw [Function.update_of_ne hji, if_neg (fun hij => hji hij.symm)]
        exact hj
  | fail => exact hj
  | remove i q hmsgid hchild =>
      change QuitsLast (Function.update s.child i _ j) _
      by_cases hji : j = i
      · subst hji
        rw [Function.update_self]
        -- The last text is still the `quit`.
        rw [hchild] at hj
        exact hj
      · rw [Function.update_of_ne hji]
        exact hj
  | read i q line rest hmsgid hparent hfgets => exact hj
  | eof i q hmsgid hparent hstdin => exact hj
  | send i q messages text hmsgid hparent hqueue hsendId => exact hj
  | lose i q text hmsgid hparent hlost => exact hj

/-- The text that a parent is about to send. -/
def Parent.pending : Parent → List Char
  | .msgsnd text => text
  | _ => []

/-- The queue of a program, if it has been started, has not been removed. -/
def State.Alive (s : State ι) (i : ι) : Prop :=
  ∀ q, s.msgid i = some q → ∃ messages, s.queue = some (q, messages)

/-- A parent with a positive type, whose input has no zeros, sends what it
    reads, as long as its queue is there. -/
structure Lines (input : List Char) (s : State ι) (i : ι) : Prop where
  sent : (texts (Entry.Of i) s.sent).flatten <+: input
  rest : s.Alive i →
    (texts (Entry.Of i) s.sent).flatten ++ (s.parent i).pending ++ s.stdin i = input

theorem alive_of_goes (hs : Numbered args s) (hgoes : Goes args s t) {j : ι} (h : t.Alive j) :
    s.Alive j := by
  intro q hj
  cases hgoes with
  | join i q' messages hnone hqueue => exact h q (update_of_some hnone hj)
  | create i hnone hqueue =>
      rcases h q (update_of_some hnone hj) with ⟨messages, hq⟩
      -- The new queue is of a number that no program has got.
      have hlt := hs.msgid_lt j q hj
      rw [← (Prod.mk.inj (Option.some.inj hq)).1] at hlt
      exact absurd hlt (Nat.lt_irrefl _)
  | fork i q' hmsgid hparent => exact h q hj
  | unforked i q' hmsgid hparent => exact h q hj
  | release i q' hmsgid hparent =>
      rcases h q hj with ⟨messages, hq⟩
      exact ⟨messages, (Option.filter_eq_some_iff.mp hq).1⟩
  | receive i q' messages rest type text hmsgid hchild hqueue htakes hreceive =>
      -- The messages change, the queue stays.
      rcases h q hj with ⟨messages', hq⟩
      rw [← (Prod.mk.inj (Option.some.inj hq)).1]
      exact ⟨messages, hqueue⟩
  | fail => exact h q hj
  | remove i q' hmsgid hchild =>
      rcases h q hj with ⟨messages, hq⟩
      exact ⟨messages, (Option.filter_eq_some_iff.mp hq).1⟩
  | read i q' line rest hmsgid hparent hfgets => exact h q hj
  | eof i q' hmsgid hparent hstdin => exact h q hj
  | send i q' messages text hmsgid hparent hqueue hsendId =>
      rcases h q hj with ⟨messages', hq⟩
      rw [← (Prod.mk.inj (Option.some.inj hq)).1]
      exact ⟨messages, hqueue⟩
  | lose i q' text hmsgid hparent hlost => exact h q hj

/-- A parent that does not go on. -/
theorem Lines.stay {i : ι} {input : List Char} (h : Lines input s i)
    (halive : t.Alive i → s.Alive i)
    (hsent : texts (Entry.Of i) t.sent = texts (Entry.Of i) s.sent)
    (hparent : (t.parent i).pending = (s.parent i).pending) (hstdin : t.stdin i = s.stdin i) :
    Lines input t i := by
  refine ⟨hsent ▸ h.sent, fun ht => ?_⟩
  rw [hsent, hparent, hstdin]
  exact h.rest (halive ht)

/-- A parent that has nothing more to send than before. -/
theorem pending_update {parent : ι → Parent} {i : ι} {p : Parent}
    (h : p.pending = (parent i).pending) (j : ι) :
    (Function.update parent i p j).pending = (parent j).pending := by
  by_cases hji : j = i
  · rw [hji, Function.update_self, h]
  · rw [Function.update_of_ne hji]

theorem lines_goes (hs : Numbered args s) {j : ι} (hpos : 0 < (args j).sendId)
    (hzero : '\x00' ∉ input j) (hj : Lines (input j) s j) (hgoes : Goes args s t) :
    Lines (input j) t j := by
  have halive := fun ht : t.Alive j => alive_of_goes hs hgoes ht
  cases hgoes with
  -- Until it sends or reads, a parent has the same text in its hands.
  | join i q messages hnone hqueue => exact hj.stay halive rfl rfl rfl
  | create i hnone hqueue => exact hj.stay halive rfl rfl rfl
  | fork i q hmsgid hparent =>
      exact hj.stay halive rfl (pending_update (by rw [hparent]; rfl) j) rfl
  | unforked i q hmsgid hparent =>
      exact hj.stay halive rfl (pending_update (by rw [hparent]; rfl) j) rfl
  | release i q hmsgid hparent =>
      exact hj.stay halive rfl (pending_update (by rw [hparent]; rfl) j) rfl
  | receive i q messages rest type text hmsgid hchild hqueue htakes hreceive =>
      exact hj.stay halive rfl rfl rfl
  | fail => exact hj
  | remove i q hmsgid hchild => exact hj.stay halive rfl rfl rfl
  | read i q line rest hmsgid hparent hfgets =>
      by_cases hji : j = i
      · subst hji
        -- What is read leaves the input and is in the hands of the parent instead. A
        -- zero would cut the line short.
        refine ⟨hj.sent, fun ht => ?_⟩
        have hrest := hj.rest (halive ht)
        have hsplit := fgets_append hfgets
        have hplain : cstring line = line := by
          refine (cstring_eq_self_iff line).mpr (fun hmem => hzero ?_)
          rw [← hrest, ← hsplit]
          exact List.mem_append_right _ (List.mem_append_left _ hmem)
        change _ ++ (Function.update s.parent j _ j).pending ++ Function.update s.stdin j rest j = _
        rw [Function.update_self, Function.update_self, hplain, ← hrest, hparent, ← hsplit]
        simp only [Parent.pending, List.append_nil, List.append_assoc]
      · refine hj.stay halive rfl ?_ (Function.update_of_ne hji _ _)
        exact congrArg Parent.pending (Function.update_of_ne hji _ _)
  | eof i q hmsgid hparent hstdin =>
      exact hj.stay halive rfl (pending_update (by rw [hparent]; rfl) j) rfl
  | send i q messages text hmsgid hparent hqueue hsendId =>
      by_cases hji : j = i
      · subst hji
        -- What was in the hands of the parent is the last text sent.
        have hrest := hj.rest (fun q' hq' => by
          rw [hmsgid, Option.some.injEq] at hq'
          exact ⟨messages, hq' ▸ hqueue⟩)
        have hsent : texts (Entry.Of j) (s.sent ++ [⟨q, (args j).sendId, j, text⟩]) =
            texts (Entry.Of j) s.sent ++ [text] := by rw [texts_append_of, if_pos rfl]
        have hall : (texts (Entry.Of j) (s.sent ++ [⟨q, (args j).sendId, j, text⟩])).flatten ++
            s.stdin j = input j := by
          rw [hsent, List.flatten_append, List.flatten_singleton, ← hrest, hparent]
          rfl
        refine ⟨hall ▸ List.prefix_append _ _, fun _ => ?_⟩
        change _ ++ (Function.update s.parent j .fgets j).pending ++ s.stdin j = _
        rw [Function.update_self]
        simp only [Parent.pending, List.append_nil]
        exact hall
      · refine hj.stay halive ?_ (congrArg Parent.pending (Function.update_of_ne hji _ _)) rfl
        change texts _ (s.sent ++ _) = _
        rw [texts_append_of, if_neg (fun hij => hji hij.symm)]
  | lose i q text hmsgid hparent hlost =>
      by_cases hji : j = i
      · subst hji
        refine ⟨hj.sent, fun ht => ?_⟩
        -- The queue is there and the type is positive, so nothing is lost.
        rcases ht q hmsgid with ⟨messages, hq⟩
        have hthere : s.messages q = some messages := messages_eq_some_iff.mpr hq
        rcases hlost with hmessages | hsendId
        · rw [hthere] at hmessages
          cases hmessages
        · exact absurd hpos (Int.not_lt.mpr hsendId)
      · exact hj.stay halive rfl (congrArg Parent.pending (Function.update_of_ne hji _ _)) rfl

/-- The invariant: the numbers of queues, the order on them, and where each
    program is. -/
structure Inv (args : ι → Args) (input : ι → List Char) (s : State ι) : Prop where
  numbered : Numbered args s
  started : Started s
  fifo : Fifo s
  quits : ∀ i, QuitsLast (s.child i) (texts (Entry.Of i) s.received)
  lines : ∀ i, 0 < (args i).sendId → '\x00' ∉ input i → Lines (input i) s i

/-- The invariant holds. -/
theorem reachable_inv (h : (programs args capacity input).Reachable s) : Inv args input s := by
  refine h.invariant (Inv args input) ?_ (fun s e t hs hst => ?_)
  · rintro s rfl
    exact ⟨⟨nofun, nofun, nofun, nofun⟩, ⟨fun i _ => rfl, fun i _ => rfl⟩,
      ⟨fun q t => List.prefix_refl _, nofun⟩, fun i => rfl,
      fun i _ _ => ⟨List.nil_prefix, fun _ => rfl⟩⟩
  · have hgoes := goes_of_step hst
    exact ⟨hs.numbered.goes hgoes, hs.started.goes hgoes, hs.fifo.goes hs.numbered hgoes,
      quitsLast_goes hs.started hs.quits hgoes,
      fun i hpos hzero => lines_goes hs.numbered hpos hzero (hs.lines i hpos hzero) hgoes⟩

/-- Where one program alone sends under a type and another one alone receives
    it, on one queue, what the second receives is what the first sends, in
    order; as long as the queue is there the rest is in it, and the first sends
    its input. -/
theorem received_prefix (h : (programs args capacity input).Reachable s) {i j : ι} {q : Nat}
    (hi : s.msgid i = some q) (hj : s.msgid j = some q) (hpos : 0 < (args i).sendId)
    (htype : (args j).msgtyp = (args i).sendId)
    (hsends : ∀ k, (args k).sendId = (args i).sendId → k = i)
    (hreceives : ∀ k, Takes (args k).msgtyp (args i).sendId → k = j) :
    texts (Entry.Of j) s.received <+: texts (Entry.Of i) s.sent ∧
    (∀ messages, s.queue = some (q, messages) →
      texts (Entry.Of i) s.sent =
        texts (Entry.Of j) s.received ++ ofType (args i).sendId messages) ∧
    ('\x00' ∉ input i → (texts (Entry.Of i) s.sent).flatten <+: input i) := by
  have hinv := reachable_inv h
  -- Only `i` sends under its type, and all it sends is on its queue.
  have hsent : texts (Entry.Of i) s.sent = texts (Entry.On q (args i).sendId) s.sent := by
    refine texts_congr (fun e he => ?_)
    rcases hinv.numbered.sent e he with ⟨hmsgid, hsendId⟩
    constructor
    · intro hof
      rw [hof, hi, Option.some.injEq] at hmsgid
      rw [hof] at hsendId
      exact ⟨hmsgid.symm, hsendId⟩
    · intro hon
      exact hsends e.program (hsendId.symm.trans hon.2)
  -- Only `j` takes messages of that type, on the same queue.
  have hreceived : texts (Entry.Of j) s.received =
      texts (Entry.On q (args i).sendId) s.received := by
    refine texts_congr (fun e he => ?_)
    rcases hinv.numbered.received e he with ⟨hmsgid, htakes⟩
    constructor
    -- Nothing of another type is received for a positive one.
    · intro hof
      rw [hof, hj, Option.some.injEq] at hmsgid
      rw [hof, htype] at htakes
      exact ⟨hmsgid.symm, htakes.1 hpos⟩
    · intro hon
      exact hreceives e.program (hon.2 ▸ htakes)
  rw [hsent, hreceived]
  refine ⟨hinv.fifo.kept q _, fun messages hqueue => hinv.fifo.rest q messages hqueue _,
    fun hzero => ?_⟩
  rw [← hsent]
  exact (hinv.lines i hpos hzero).sent

/-- Two programs that talk to each other, and one whose type is too large for an
    `int`. -/
def threeWays : Fin 3 → Args
  | 0 => ⟨1, 2⟩
  | 1 => ⟨2, 4294967297⟩
  | 2 => ⟨3, 4294967299⟩

/-- The first says something, and the second wants to quit. -/
def dialogue : Fin 3 → List Char
  | 0 => ['h', 'i', '\n']
  | 1 => ['q', 'u', 'i', 't', '\n']
  | 2 => ['\x00', '\n']

/-- The second has received what the first has said. The third, whose input has
    a zero, has sent nothing of it. -/
theorem received_prefix_hi : ∃ s, (programs threeWays 16384 dialogue).Reachable s ∧
    texts (Entry.Of 1) s.received = [['h', 'i', '\n']] ∧
    (texts (Entry.Of 1) s.received <+: texts (Entry.Of 0) s.sent ∧
    (∀ messages, s.queue = some (0, messages) →
      texts (Entry.Of 0) s.sent =
        texts (Entry.Of 1) s.received ++ ofType (threeWays 0).sendId messages) ∧
    ('\x00' ∉ dialogue 0 → (texts (Entry.Of 0) s.sent).flatten <+: dialogue 0)) := by
  rcases System.exists_exec (step threeWays 16384) (start dialogue)
    [.start 0, .start 1, .start 2, .fork 0 true, .fork 1 true, .fork 2 true, .fgets 2, .msgsnd 2,
      .fgets 0, .msgsnd 0, .msgrcv 1]
    (fun s => decide (s.msgid 0 = some 0 ∧ s.msgid 1 = some 0 ∧
      texts (Entry.Of 1) s.received = [['h', 'i', '\n']])) (by decide +kernel) with
    ⟨s, hexec, hend⟩
  rcases of_decide_eq_true hend with ⟨hfirst, hsecond, hreceived⟩
  have h : (programs threeWays 16384 dialogue).Reachable s :=
    System.reachable_of_exec _ _ _ (.init _ rfl) hexec
  exact ⟨s, h, hreceived, received_prefix h hfirst hsecond (by decide) (by decide) (by decide)
    (by decide)⟩

end Invariant

end MessagePassing

end BlogSample
