import Mathlib.Data.List.Basic

/-!
# Message Queues

Queues whose messages have a type. Who receives names a type and gets the
first message of this type, wherever it stands in the queue, so one queue
serves several receivers, and each type by itself is a queue.

On the queues of System V the types are positive. Who receives can also name
zero, for the first message of all, or a negative number, for the first message
of the lowest type up to its absolute value.

## Main definitions

* `ofType`: The contents of the messages of a type, in order.
* `receive`: The first message of a type, and the queue without it.
* `msgrcv`: The message that is received for a type, zero or a negative number.
* `Takes`: The types that are received so.

## Theorems

* `ofType_send`: A message is the last one of its type.
* `ofType_receive`: A message is received that was the first one of its type,
  and no other type is touched.
* `msgrcv_eq_some`: What is received is of one type.
-/

namespace BlogSample

namespace MessageQueue

universe u v

variable {τ : Type u} {α : Type v} [DecidableEq τ]

/-- The contents of the messages of a type, in order. -/
def ofType (t : τ) (queue : List (τ × α)) : List α :=
  (queue.filter (fun m => m.1 = t)).map Prod.snd

/-- The first message of a type, and the queue without it. -/
def receive (t : τ) : List (τ × α) → Option (α × List (τ × α))
  | [] => none
  | m :: queue =>
      if m.1 = t then some (m.2, queue)
      else (receive t queue).map (fun r => (r.1, m :: r.2))

@[simp]
theorem ofType_nil (t : τ) : ofType t ([] : List (τ × α)) = [] :=
  rfl

theorem ofType_cons (t : τ) (m : τ × α) (queue : List (τ × α)) :
    ofType t (m :: queue) = if m.1 = t then m.2 :: ofType t queue else ofType t queue := by
  unfold ofType
  by_cases h : m.1 = t
  · rw [if_pos h, List.filter_cons_of_pos (by simpa using h), List.map_cons]
  · rw [if_neg h, List.filter_cons_of_neg (by simpa using h)]

/-- A message is the last one of its type. -/
theorem ofType_send (t : τ) (queue : List (τ × α)) (m : τ × α) :
    ofType t (queue ++ [m]) = if m.1 = t then ofType t queue ++ [m.2] else ofType t queue := by
  unfold ofType
  rw [List.filter_append, List.map_append]
  by_cases h : m.1 = t
  · rw [if_pos h, List.filter_cons_of_pos (by simpa using h)]
    rfl
  · rw [if_neg h, List.filter_cons_of_neg (by simpa using h), List.filter_nil, List.map_nil,
      List.append_nil]

/-- A message is received that was the first one of its type, and no other
    type is touched. -/
theorem ofType_receive {t : τ} {queue rest : List (τ × α)} {x : α}
    (h : receive t queue = some (x, rest)) (t' : τ) :
    ofType t' queue = if t = t' then x :: ofType t' rest else ofType t' rest := by
  induction queue generalizing rest with
  | nil => cases h
  | cons m queue ih =>
      unfold receive at h
      by_cases hm : m.1 = t
      · rw [if_pos hm, Option.some.injEq, Prod.mk.injEq] at h
        rcases h with ⟨rfl, rfl⟩
        rw [ofType_cons, hm]
      · rw [if_neg hm, Option.map_eq_some_iff] at h
        rcases h with ⟨⟨y, rest'⟩, hrest, heq⟩
        rw [Prod.mk.injEq] at heq
        rcases heq with ⟨rfl, rfl⟩
        rw [ofType_cons, ofType_cons, ih hrest]
        by_cases ht : t = t'
        · have hne : ¬ m.1 = t' := fun hmt => hm (hmt.trans ht.symm)
          rw [if_pos ht, if_pos ht, if_neg hne, if_neg hne]
        · rw [if_neg ht, if_neg ht]

section SystemV

variable {queue rest : List (Int × α)} {msgtyp t : Int} {x : α}

/-- The type of the message that is received next. -/
def choose (msgtyp : Int) (queue : List (Int × α)) : Option Int :=
  if 0 < msgtyp then some msgtyp
  else if msgtyp = 0 then queue.head?.map Prod.fst
  else ((queue.map Prod.fst).filter (fun t => t ≤ -msgtyp)).min?

/-- The message that is received next, with its type, and the queue without
    it. -/
def msgrcv (msgtyp : Int) (queue : List (Int × α)) : Option (Int × α × List (Int × α)) :=
  (choose msgtyp queue).bind (fun t => (receive t queue).map (fun r => (t, r)))

/-- The types of messages that can be received. -/
def Takes (msgtyp t : Int) : Prop := (0 < msgtyp → t = msgtyp) ∧ (msgtyp < 0 → t ≤ -msgtyp)

instance (msgtyp t : Int) : Decidable (Takes msgtyp t) :=
  inferInstanceAs (Decidable (_ ∧ _))

theorem takes_of_choose (h : choose msgtyp queue = some t) : Takes msgtyp t := by
  unfold choose at h
  split at h
  · next hpos => exact ⟨fun _ => (Option.some.inj h).symm, fun hneg => absurd hpos (by omega)⟩
  · next hpos =>
      split at h
      · next hzero => exact ⟨fun hp => absurd hp hpos, fun hneg => absurd hzero (by omega)⟩
      · refine ⟨fun hp => absurd hp hpos, fun _ => ?_⟩
        exact of_decide_eq_true (List.mem_filter.mp (List.min?_mem h)).2

/-- What is received is the first message of a type. -/
theorem msgrcv_eq_some (h : msgrcv msgtyp queue = some (t, x, rest)) :
    Takes msgtyp t ∧ receive t queue = some (x, rest) := by
  unfold msgrcv at h
  rcases Option.bind_eq_some_iff.mp h with ⟨t', ht', h⟩
  rcases Option.map_eq_some_iff.mp h with ⟨r, hr, h⟩
  rcases Prod.mk.inj h with ⟨rfl, rfl⟩
  exact ⟨takes_of_choose ht', hr⟩

end SystemV

end MessageQueue

end BlogSample
