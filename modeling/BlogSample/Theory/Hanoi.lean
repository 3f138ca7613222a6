import Mathlib.Algebra.Group.Nat.Defs
import Mathlib.Data.List.Basic
import Mathlib.Logic.Function.Basic
import Mathlib.Order.Nat

/-!
# The Tower of Hanoi

Discs on three pegs, numbered from the smallest one. A move takes a disc from
the top of its peg and puts it on another one that has no smaller disc on top.

The solution of the puzzle for some discs leaves alone what is underneath them,
so it may be used within that of one more disc. That no solution is shorter is
shown with a distance from where the discs are to a peg on which they shall be.
The distance of a tower is the length of the solution, and a move makes it
smaller by one at most: a disc moves only when all the smaller ones are on the
third peg, and for each of them the recursion of the distance is the same on
both sides.

## Main definitions

* `Pegs`, `Pegs.third`: Three pegs, and the one that is neither of two.
* `step`, `play`: A move and a list of them, if they are legal.
* `tower`: All discs on one peg.
* `solution`: The moves of a tower from a peg to another one.
* `distance`: The moves that are needed to get discs to a peg.
* `Represents`: Where the discs are, apart from their order.

## Theorems

* `play_solution`: The solution is legal and moves the tower.
* `length_solution`: The number of its moves.
* `distance_update`: A move makes the distance smaller by one at most.
* `length_le_of_play`: No legal way to move the tower is shorter.
-/

namespace BlogSample

namespace Hanoi

variable {P : Type} [DecidableEq P]

/-! ### Pegs -/

/-- Three pegs, no two of them the same. -/
structure Pegs (P : Type) where
  a : P
  b : P
  c : P
  ab : a ≠ b
  ac : a ≠ c
  bc : b ≠ c

namespace Pegs

/-- One of the three pegs. -/
def Has (t : Pegs P) (p : P) : Prop :=
  p = t.a ∨ p = t.b ∨ p = t.c

instance (t : Pegs P) (p : P) : Decidable (t.Has p) :=
  inferInstanceAs (Decidable (p = t.a ∨ p = t.b ∨ p = t.c))

/-- The peg that is neither of two. -/
def third (t : Pegs P) (p q : P) : P :=
  if t.a ≠ p ∧ t.a ≠ q then t.a else if t.b ≠ p ∧ t.b ≠ q then t.b else t.c

/-- The third peg is the only one that is neither of two different ones. -/
theorem third_spec (t : Pegs P) {p q : P} (hp : t.Has p) (hq : t.Has q) (hne : p ≠ q) :
    t.Has (t.third p q) ∧ t.third p q ≠ p ∧ t.third p q ≠ q ∧
      ∀ r, t.Has r → r ≠ p → r ≠ q → r = t.third p q := by
  have hab := t.ab
  have hac := t.ac
  have hbc := t.bc
  unfold Has third at *
  grind

end Pegs

/-! ### Moves -/

/-- A move of a disc from the top of a peg to the top of another one. -/
structure Move (P : Type) where
  disc : ℕ
  source : P
  target : P

/-- The discs on each peg, from the top downwards. -/
abbrev Config (P : Type) := P → List ℕ

/-- A disc may be put on a peg if there is no smaller one on top of it. -/
def Fits (d : ℕ) (l : List ℕ) : Prop :=
  ∀ e ∈ l.head?, ¬e < d

instance (d : ℕ) (l : List ℕ) : Decidable (Fits d l) :=
  inferInstanceAs (Decidable (∀ e ∈ l.head?, ¬e < d))

/-- The pegs after a move, if it is legal. -/
def step (t : Pegs P) (c : Config P) (m : Move P) : Option (Config P) :=
  match c m.source with
  | [] => none
  | d :: rest =>
      if d = m.disc ∧ t.Has m.target ∧ Fits d (Function.update c m.source rest m.target) then
        some (Function.update (Function.update c m.source rest) m.target
          (d :: Function.update c m.source rest m.target))
      else none

/-- The pegs after some moves, if they are all legal. -/
def play (t : Pegs P) (moves : List (Move P)) (c : Config P) : Option (Config P) :=
  moves.foldlM (step t) c

theorem play_append (t : Pegs P) (moves moves' : List (Move P)) (c : Config P) :
    play t (moves ++ moves') c = (play t moves c).bind (play t moves') :=
  List.foldlM_append

theorem play_cons (t : Pegs P) (m : Move P) (moves : List (Move P)) (c : Config P) :
    play t (m :: moves) c = (step t c m).bind (play t moves) :=
  List.foldlM_cons

theorem step_of_cons {c : Config P} {m : Move P} {d : ℕ} {rest : List ℕ}
    (hc : c m.source = d :: rest) (t : Pegs P) :
    step t c m =
      if d = m.disc ∧ t.Has m.target ∧ Fits d (Function.update c m.source rest m.target) then
        some (Function.update (Function.update c m.source rest) m.target
          (d :: Function.update c m.source rest m.target))
      else none := by
  rw [step, hc]

/-- What a legal move does. -/
theorem step_eq_some {t : Pegs P} {c c' : Config P} {m : Move P} (h : step t c m = some c') :
    ∃ rest, c m.source = m.disc :: rest ∧ t.Has m.target ∧
      Fits m.disc (Function.update c m.source rest m.target) ∧
      c' = Function.update (Function.update c m.source rest) m.target
        (m.disc :: Function.update c m.source rest m.target) := by
  rcases hsource : c m.source with _ | ⟨d, rest⟩
  · rw [step, hsource] at h
    cases h
  · rw [step_of_cons hsource] at h
    by_cases hlegal : d = m.disc ∧ t.Has m.target ∧
        Fits d (Function.update c m.source rest m.target)
    · rcases hlegal with ⟨rfl, hhas, hfits⟩
      rw [if_pos ⟨rfl, hhas, hfits⟩, Option.some.injEq] at h
      exact ⟨rest, rfl, hhas, hfits, h.symm⟩
    · rw [if_neg hlegal] at h
      cases h

/-- A disc moves to a peg on which all discs are larger. -/
theorem step_of_lt {t : Pegs P} {c : Config P} {p q : P} {d : ℕ} {rest : List ℕ} (hne : p ≠ q)
    (hq : t.Has q) (hc : c p = d :: rest) (hlt : ∀ e ∈ c q, d < e) :
    step t c ⟨d, p, q⟩ = some (Function.update (Function.update c p rest) q (d :: c q)) := by
  have hq' : Function.update c p rest q = c q := Function.update_of_ne hne.symm rest c
  have hfits : Fits d (c q) := fun e he => Nat.not_lt.mpr (hlt e (List.mem_of_mem_head? he)).le
  rw [step_of_cons hc, hq', if_pos ⟨rfl, hq, hfits⟩]

/-! ### The solution -/

/-- The discs from the smallest one to a given one. -/
def discs (n : ℕ) : List ℕ :=
  List.range' 1 n

theorem mem_discs {n d : ℕ} : d ∈ discs n ↔ 1 ≤ d ∧ d ≤ n := by
  rw [discs, List.mem_range'_1]
  omega

theorem discs_succ (n : ℕ) : discs (n + 1) = discs n ++ [n + 1] := by
  rw [discs, List.range'_concat, Nat.one_mul, Nat.add_comm 1 n]
  rfl

/-- All discs on one peg. -/
def tower (n : ℕ) (p : P) : Config P :=
  fun r => if r = p then discs n else []

/-- The moves of a tower from a peg to another one, by way of a third one. -/
def solution : ℕ → P → P → P → List (Move P)
  | 0, _, _, _ => []
  | n + 1, source, auxiliary, target =>
      solution n source target auxiliary ++
        ⟨n + 1, source, target⟩ :: solution n auxiliary source target

omit [DecidableEq P] in
theorem length_solution (n : ℕ) (p r q : P) : (solution n p r q).length = 2 ^ n - 1 := by
  induction n generalizing p r q with
  | zero => rfl
  | succ n ih =>
      have hpos : 0 < 2 ^ n := Nat.two_pow_pos n
      rw [solution, List.length_append, List.length_cons, ih, ih, Nat.pow_succ]
      omega

/-- A peg that has its own discs again is as it was, whatever has happened on the two others. -/
theorem update_between {c : Config P} {p r q : P} (hpr : p ≠ r) (a b u v w : List ℕ) :
    Function.update (Function.update (Function.update (Function.update (Function.update
      (Function.update c p a) r b) p u) q v) r (c r)) q w =
        Function.update (Function.update c p u) q w := by
  funext x
  by_cases hxq : x = q
  · rw [hxq, Function.update_self, Function.update_self]
  · rw [Function.update_of_ne hxq, Function.update_of_ne hxq]
    by_cases hxr : x = r
    · rw [hxr, Function.update_self, Function.update_of_ne hpr.symm]
    · rw [Function.update_of_ne hxr, Function.update_of_ne hxq]
      by_cases hxp : x = p
      · rw [hxp, Function.update_self, Function.update_self]
      · rw [Function.update_of_ne hxp, Function.update_of_ne hxp, Function.update_of_ne hxr,
          Function.update_of_ne hxp]

/-- The discs move, and the larger ones that are underneath them or on the other pegs stay. -/
theorem play_solution_above {t : Pegs P} (n : ℕ) {p r q : P} (hp : t.Has p) (hr : t.Has r)
    (hq : t.Has q) (hpr : p ≠ r) (hpq : p ≠ q) (hrq : r ≠ q) {c : Config P} {under : List ℕ}
    (hc : c p = discs n ++ under) (hunder : ∀ e ∈ under, n < e) (hcr : ∀ e ∈ c r, n < e)
    (hcq : ∀ e ∈ c q, n < e) :
    play t (solution n p r q) c =
      some (Function.update (Function.update c p under) q (discs n ++ c q)) := by
  induction n generalizing p r q c under with
  | zero =>
      have hp' : Function.update c p under = c := by
        rw [Function.update_eq_self_iff, hc]
        rfl
      have hq' : Function.update c q (discs 0 ++ c q) = c := Function.update_eq_self q c
      rw [hp', hq']
      rfl
  | succ n ih =>
      have hpn : c p = discs n ++ (n + 1) :: under := by
        rw [hc, discs_succ, List.append_assoc]
        rfl
      -- The smaller discs go to the third peg.
      have hfirst := ih hp hq hr hpq hpr hrq.symm hpn
        (fun e he => by
          rcases List.mem_cons.mp he with rfl | he
          · exact Nat.lt_succ_self n
          · exact (Nat.lt_succ_self n).trans (hunder e he))
        (fun e he => (Nat.lt_succ_self n).trans (hcq e he))
        (fun e he => (Nat.lt_succ_self n).trans (hcr e he))
      generalize hc₁ : Function.update (Function.update c p ((n + 1) :: under)) r
        (discs n ++ c r) = c₁ at hfirst
      have hp₁ : c₁ p = (n + 1) :: under := by
        rw [← hc₁, Function.update_of_ne hpr, Function.update_self]
      have hq₁ : c₁ q = c q := by
        rw [← hc₁, Function.update_of_ne hrq.symm, Function.update_of_ne hpq.symm]
      have hr₁ : c₁ r = discs n ++ c r := by rw [← hc₁, Function.update_self]
      -- The largest one goes to the target.
      have hsecond := step_of_lt hpq hq hp₁ (by rwa [hq₁])
      rw [hq₁] at hsecond
      generalize hc₂ : Function.update (Function.update c₁ p under) q ((n + 1) :: c q) = c₂
        at hsecond
      have hp₂ : c₂ p = under := by
        rw [← hc₂, Function.update_of_ne hpq, Function.update_self]
      have hq₂ : c₂ q = (n + 1) :: c q := by rw [← hc₂, Function.update_self]
      have hr₂ : c₂ r = discs n ++ c r := by
        rw [← hc₂, Function.update_of_ne hrq, Function.update_of_ne hpr.symm, hr₁]
      -- The smaller ones follow it.
      have hthird := ih hr hp hq hpr.symm hrq hpq hr₂
        (fun e he => (Nat.lt_succ_self n).trans (hcr e he))
        (fun e he => (Nat.lt_succ_self n).trans (hunder e (hp₂ ▸ he)))
        (fun e he => by
          rcases List.mem_cons.mp (hq₂ ▸ he) with rfl | he
          · exact Nat.lt_succ_self n
          · exact (Nat.lt_succ_self n).trans (hcq e he))
      rw [solution, play_append, hfirst, Option.bind_some, play_cons, hsecond, Option.bind_some,
        hthird, hq₂, ← hc₂, ← hc₁, update_between hpr, discs_succ, List.append_assoc]
      rfl

/-- The solution is legal, and takes the tower to the target. -/
theorem play_solution (t : Pegs P) (n : ℕ) {p r q : P} (hp : t.Has p) (hr : t.Has r)
    (hq : t.Has q) (hpr : p ≠ r) (hpq : p ≠ q) (hrq : r ≠ q) :
    play t (solution n p r q) (tower n p) = some (tower n q) := by
  have hempty (x : P) (hx : x ≠ p) : tower n p x = [] := if_neg hx
  have hnone (x : P) (hx : x ≠ p) : ∀ e ∈ tower n p x, n < e := by
    rw [hempty x hx]
    exact fun e he => absurd he List.not_mem_nil
  have hself : tower n p p = discs n ++ [] := by rw [tower, if_pos rfl, List.append_nil]
  rw [play_solution_above n hp hr hq hpr hpq hrq hself (fun e he => absurd he List.not_mem_nil)
    (hnone r hpr.symm) (hnone q hpq.symm), Option.some.injEq]
  funext x
  rw [hempty q hpq.symm, List.append_nil]
  by_cases hxq : x = q
  · rw [hxq, Function.update_self, tower, if_pos rfl]
  · rw [Function.update_of_ne hxq, tower, if_neg hxq]
    by_cases hxp : x = p
    · rw [hxp, Function.update_self]
    · rw [Function.update_of_ne hxp, hempty x hxp]

/-! ### The distance -/

/-- The moves that are needed to get the first discs to a peg, from where they are: the largest one
    has to move if it is not there, with all the others on the third peg. -/
def distance (t : Pegs P) (f : ℕ → P) : ℕ → P → ℕ
  | 0, _ => 0
  | n + 1, q =>
      if f (n + 1) = q then distance t f n q
      else 2 ^ n + distance t f n (t.third (f (n + 1)) q)

variable {t : Pegs P} {f g : ℕ → P} {n : ℕ} {p q : P}

theorem distance_congr (h : ∀ d, 1 ≤ d → d ≤ n → f d = g d) (q : P) :
    distance t f n q = distance t g n q := by
  induction n generalizing q with
  | zero => rfl
  | succ n ih =>
      have ih' := ih (fun d h1 hn => h d h1 (hn.trans (Nat.le_succ n)))
      rw [distance, distance, h (n + 1) (Nat.succ_pos n) (Nat.le_refl _), ih', ih']

theorem distance_self (h : ∀ d, 1 ≤ d → d ≤ n → f d = q) : distance t f n q = 0 := by
  induction n with
  | zero => rfl
  | succ n ih =>
      rw [distance, if_pos (h (n + 1) (Nat.succ_pos n) (Nat.le_refl _))]
      exact ih (fun d h1 hn => h d h1 (hn.trans (Nat.le_succ n)))

/-- The distance of a tower from another peg is the length of the solution. -/
theorem distance_tower (hp : t.Has p) (hq : t.Has q) (hne : p ≠ q)
    (h : ∀ d, 1 ≤ d → d ≤ n → f d = p) : distance t f n q + 1 = 2 ^ n := by
  induction n generalizing q with
  | zero => rfl
  | succ n ih =>
      -- The largest disc goes to the target, and the tower of the others to the third peg.
      rcases t.third_spec hp hq hne with ⟨hthird, hnep, _, _⟩
      have hlast := h (n + 1) (Nat.succ_pos n) (Nat.le_refl _)
      rw [distance, if_neg (by rwa [hlast]), hlast, Nat.add_assoc,
        ih hthird hnep.symm (fun d h1 hn => h d h1 (hn.trans (Nat.le_succ n))), Nat.pow_succ,
        Nat.mul_two]

/-- A disc that moves while the smaller ones are on neither of its two pegs changes the distance by
    one at most. This is where the largest disc is the one that moves. -/
theorem distance_update_last (hf : ∀ d, 1 ≤ d → d ≤ n + 1 → t.Has (f d)) (hp : t.Has p)
    (hfree : ∀ e, 1 ≤ e → e ≤ n → f e ≠ f (n + 1) ∧ f e ≠ p) (hq : t.Has q) :
    distance t f (n + 1) q ≤ distance t (Function.update f (n + 1) p) (n + 1) q + 1 := by
  have hlast := hf (n + 1) (Nat.succ_pos n) (Nat.le_refl _)
  by_cases hstay : f (n + 1) = p
  · rw [Function.update_eq_self_iff.mpr hstay.symm]
    exact Nat.le_succ _
  -- The smaller discs are a tower on the third peg.
  rcases t.third_spec hlast hp hstay with ⟨hthird, hne, hnep, honly⟩
  have htower : ∀ d, 1 ≤ d → d ≤ n → f d = t.third (f (n + 1)) p := fun d h1 hn =>
    honly (f d) (hf d h1 (hn.trans (Nat.le_succ n))) (hfree d h1 hn).1 (hfree d h1 hn).2
  have hsmaller (x : P) : distance t (Function.update f (n + 1) p) n x = distance t f n x :=
    distance_congr (fun d _ hn => Function.update_of_ne (by omega) p f) x
  rw [distance, distance, Function.update_self, hsmaller, hsmaller]
  by_cases hfrom : f (n + 1) = q
  -- It leaves the peg.
  · have hdist := distance_tower hthird hlast hne htower
    rw [if_pos hfrom, if_neg (fun h => hstay (hfrom.trans h.symm)), ← hfrom]
    omega
  · rw [if_neg hfrom]
    by_cases hto : p = q
    -- It comes to the peg, and the others have to follow.
    · have hdist := distance_tower hthird hp hnep htower
      rw [if_pos hto, ← hto, distance_self htower]
      omega
    -- It moves between the two other pegs, and the others have to get out of its way again.
    · rcases t.third_spec hlast hq hfrom with ⟨_, _, _, honly'⟩
      rcases t.third_spec hp hq hto with ⟨_, _, _, honly''⟩
      have hqt : q = t.third (f (n + 1)) p := honly q hq (Ne.symm hfrom) (Ne.symm hto)
      rw [if_neg hto, ← honly' p hp (Ne.symm hstay) hto, ← honly'' (f (n + 1)) hlast hstay hfrom]
      have hdist := distance_tower hthird hp hnep htower
      have hdist' := distance_tower hthird hlast hne htower
      omega

/-- A legal move makes the distance smaller by one at most. -/
theorem distance_update {d : ℕ} (hf : ∀ e, 1 ≤ e → e ≤ n → t.Has (f e)) (hp : t.Has p)
    (hfree : ∀ e, 1 ≤ e → e < d → f e ≠ f d ∧ f e ≠ p) (hq : t.Has q) :
    distance t f n q ≤ distance t (Function.update f d p) n q + 1 := by
  induction n generalizing q with
  | zero => exact Nat.zero_le _
  | succ n ih =>
      by_cases hd : d = n + 1
      · subst hd
        exact distance_update_last hf hp (fun e h1 hn => hfree e h1 (Nat.lt_succ_of_le hn)) hq
      -- A larger disc stays, so what it adds to the distance is the same.
      · have ih' := fun q hq =>
          ih (q := q) (fun e h1 hn => hf e h1 (hn.trans (Nat.le_succ n))) hq
        have hlast := hf (n + 1) (Nat.succ_pos n) (Nat.le_refl _)
        rw [distance, distance, Function.update_of_ne (Ne.symm hd)]
        by_cases hsame : f (n + 1) = q
        · rw [if_pos hsame, if_pos hsame]
          exact ih' q hq
        · rw [if_neg hsame, if_neg hsame, Nat.add_assoc]
          exact Nat.add_le_add_left (ih' _ (t.third_spec hlast hq hsame).1) _

/-! ### No way is shorter -/

/-- A disc is on one peg, and no larger one is above it. -/
structure Represents (t : Pegs P) (n : ℕ) (c : Config P) (f : ℕ → P) : Prop where
  mem_iff : ∀ p d, d ∈ c p ↔ (1 ≤ d ∧ d ≤ n) ∧ f d = p
  sorted : ∀ p, (c p).Pairwise (· < ·)
  has : ∀ d, 1 ≤ d → d ≤ n → t.Has (f d)

theorem tower_represents (hp : t.Has p) : Represents t n (tower n p) (fun _ => p) where
  mem_iff := fun x d => by
    rw [tower]
    by_cases hx : x = p
    · rw [if_pos hx, mem_discs, hx]
      exact (and_iff_left rfl).symm
    · rw [if_neg hx]
      exact ⟨fun h => absurd h List.not_mem_nil, fun h => absurd h.2.symm hx⟩
  sorted := fun x => by
    rw [tower]
    by_cases hx : x = p
    · rw [if_pos hx]
      exact List.pairwise_lt_range'
    · rw [if_neg hx]
      exact .nil
  has := fun _ _ _ => hp

/-- A disc that may be put on others is smaller than all of them. -/
theorem Fits.lt {d : ℕ} {l : List ℕ} (h : Fits d l) (hl : l.Pairwise (· < ·)) (hd : d ∉ l) :
    ∀ e ∈ l, d < e := by
  cases l with
  | nil => exact fun e he => absurd he List.not_mem_nil
  | cons x l =>
      have hx : d < x := by
        refine lt_of_le_of_ne (Nat.not_lt.mp (h x rfl)) (fun heq => hd ?_)
        rw [heq]
        exact List.mem_cons_self ..
      intro e he
      rcases List.mem_cons.mp he with rfl | he
      · exact hx
      · exact hx.trans ((List.pairwise_cons.mp hl).1 e he)

/-- The pegs without the disc that is taken off the top of one of them. -/
theorem Represents.lift {c : Config P} (h : Represents t n c f) {source : P} {disc : ℕ}
    {rest : List ℕ} (hsource : c source = disc :: rest) :
    (∀ x e, e ∈ Function.update c source rest x ↔ e ∈ c x ∧ e ≠ disc) ∧
      ∀ x, (Function.update c source rest x).Pairwise (· < ·) := by
  have hdisc : disc ∈ c source := by
    rw [hsource]
    exact List.mem_cons_self ..
  have hat := ((h.mem_iff _ _).mp hdisc).2
  have hsorted := h.sorted source
  rw [hsource, List.pairwise_cons] at hsorted
  refine ⟨fun x e => ?_, fun x => ?_⟩
  · by_cases hx : x = source
    · rw [hx, Function.update_self, hsource, List.mem_cons]
      exact ⟨fun he => ⟨.inr he, Nat.ne_of_gt (hsorted.1 e he)⟩,
        fun he => he.1.resolve_left he.2⟩
    · rw [Function.update_of_ne hx]
      refine ⟨fun he => ⟨he, fun heq => hx ?_⟩, fun he => he.1⟩
      rw [← hat, ← heq]
      exact ((h.mem_iff x e).mp he).2.symm
  · by_cases hx : x = source
    · rw [hx, Function.update_self]
      exact hsorted.2
    · rw [Function.update_of_ne hx]
      exact h.sorted x

/-- After a legal move, one disc is on another peg, and the smaller ones are on neither the one it
    was on nor the one it is on. -/
theorem Represents.step {c c' : Config P} {m : Move P} (h : Represents t n c f)
    (hstep : step t c m = some c') :
    Represents t n c' (Function.update f m.disc m.target) ∧ t.Has m.target ∧
      ∀ e, 1 ≤ e → e < m.disc → f e ≠ f m.disc ∧ f e ≠ m.target := by
  rcases step_eq_some hstep with ⟨rest, hsource, htarget, hfits, rfl⟩
  -- The disc is taken off first, and then put on its new peg.
  rcases h.lift hsource with ⟨hmem₁, hsorted₁⟩
  generalize Function.update c m.source rest = c₁ at hfits hmem₁ hsorted₁ ⊢
  have hdisc : m.disc ∈ c m.source := by
    rw [hsource]
    exact List.mem_cons_self ..
  rcases (h.mem_iff _ _).mp hdisc with ⟨⟨hpos, hle⟩, hat⟩
  have hsorted := h.sorted m.source
  rw [hsource, List.pairwise_cons] at hsorted
  have hlarger := hfits.lt (hsorted₁ m.target) (fun hd => ((hmem₁ _ _).mp hd).2 rfl)
  refine ⟨⟨fun x e => ?_, fun x => ?_, fun e h1 hn => ?_⟩, htarget, fun e h1 hlt => ⟨?_, ?_⟩⟩
  · by_cases he : e = m.disc
    · rw [he, Function.update_self]
      by_cases hx : x = m.target
      · rw [hx, Function.update_self]
        exact ⟨fun _ => ⟨⟨hpos, hle⟩, rfl⟩, fun _ => List.mem_cons_self ..⟩
      · rw [Function.update_of_ne hx, hmem₁]
        exact ⟨fun hd => absurd rfl hd.2, fun hd => absurd hd.2.symm hx⟩
    · rw [Function.update_of_ne he, ← h.mem_iff]
      by_cases hx : x = m.target
      · rw [hx, Function.update_self, List.mem_cons, or_iff_right he, hmem₁]
        exact and_iff_left he
      · rw [Function.update_of_ne hx, hmem₁]
        exact and_iff_left he
  · by_cases hx : x = m.target
    · rw [hx, Function.update_self]
      exact List.pairwise_cons.mpr ⟨hlarger, hsorted₁ m.target⟩
    · rw [Function.update_of_ne hx]
      exact hsorted₁ x
  · by_cases he : e = m.disc
    · rw [he, Function.update_self]
      exact htarget
    · rw [Function.update_of_ne he]
      exact h.has e h1 hn
  -- On its old peg, the disc was on top.
  · intro heq
    have hmem : e ∈ c m.source := (h.mem_iff _ _).mpr ⟨⟨h1, hlt.le.trans hle⟩, heq.trans hat⟩
    rw [hsource, List.mem_cons] at hmem
    rcases hmem with rfl | hmem
    · exact Nat.lt_irrefl _ hlt
    · exact Nat.lt_asymm hlt (hsorted.1 e hmem)
  -- On its new peg, the disc was put on top.
  · intro heq
    have hmem : e ∈ c₁ m.target :=
      (hmem₁ _ _).mpr ⟨(h.mem_iff _ _).mpr ⟨⟨h1, hlt.le.trans hle⟩, heq⟩, Nat.ne_of_lt hlt⟩
    exact Nat.lt_asymm hlt (hlarger e hmem)

/-- In each run, there are as many moves as the distance has become smaller by. -/
theorem Represents.play {c c' : Config P} (h : Represents t n c f) {moves : List (Move P)}
    (hplay : play t moves c = some c') (hq : t.Has q) :
    ∃ g, Represents t n c' g ∧ distance t f n q ≤ distance t g n q + moves.length := by
  induction moves generalizing c f with
  | nil =>
      cases hplay
      exact ⟨f, h, Nat.le_refl _⟩
  | cons m moves ih =>
      rw [play_cons, Option.bind_eq_some_iff] at hplay
      rcases hplay with ⟨c₁, hstep, hrest⟩
      rcases h.step hstep with ⟨h₁, htarget, hfree⟩
      rcases ih h₁ hrest with ⟨g, hg, hlen⟩
      have hone := distance_update h.has htarget hfree hq
      refine ⟨g, hg, ?_⟩
      rw [List.length_cons]
      omega

/-- No legal way to move a tower from a peg to another one is shorter than the solution. -/
theorem length_le_of_play (hp : t.Has p) (hq : t.Has q) (hne : p ≠ q) {moves : List (Move P)}
    (hplay : play t moves (tower n p) = some (tower n q)) : 2 ^ n - 1 ≤ moves.length := by
  rcases (tower_represents hp).play hplay hq with ⟨g, hg, hlen⟩
  -- In the end all discs are on the target, and nothing is left of the distance.
  have hall : ∀ d, 1 ≤ d → d ≤ n → g d = q := by
    intro d h1 hn
    have hmem : d ∈ tower n q q := by
      rw [tower, if_pos rfl, mem_discs]
      exact ⟨h1, hn⟩
    exact ((hg.mem_iff q d).mp hmem).2
  have hstart := distance_tower (f := fun _ => p) (n := n) hp hq hne (fun _ _ _ => rfl)
  rw [distance_self hall] at hlen
  omega

end Hanoi

end BlogSample
