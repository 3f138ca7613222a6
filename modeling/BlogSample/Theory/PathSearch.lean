import Mathlib.Data.List.Nodup
import Mathlib.Logic.Function.Basic
import Mathlib.Order.Basic

/-!
# Searching for a Path

A depth-first search for a goal that marks the vertices on the path it is on. A
vertex that leads nowhere is marked as dead when the search leaves it, and stays
so. The search stops as soon as it sees the mark of the path on the goal, which
it looks for before it looks at a vertex.

The search is a relation between the marks before and after, for a list of
vertices to try. Only free vertices get another mark. If the search fails, what
it has marked is dead, can be reached, and leads to nothing that is still free;
so from one vertex on it is everything that can be reached. If it succeeds, the
vertices with the mark of the path are those of a path to the goal.

## Main definitions

* `Colours`: The marks.
* `Path`: Paths of vertices with some property.
* `Tries`: The search, for a list of vertices.
* `Failed`, `Reached`: What it does when it fails, and when it succeeds.

## Theorems

* `Tries.failed`, `Tries.reached`: What the search does.
* `Tries.cons_true`, `Tries.cons_false`: One vertex more before the others.
* `Failed.dead_iff`: What is dead after a search that has failed.
* `Tries.true_iff`: When a search succeeds.
-/

namespace BlogSample

namespace PathSearch

universe u w

/-- The marks that the search tells apart. There may be others, which it leaves alone. -/
structure Colours (M : Type w) where
  free : M
  path : M
  dead : M
  path_ne_free : path ≠ free
  dead_ne_free : dead ≠ free
  dead_ne_path : dead ≠ path

section

variable {V : Type u} (nb : V → List V)

/-- The vertices of a path, which all have a property. -/
inductive Path (ok : V → Prop) : V → V → List V → Prop
  | single (a : V) : ok a → Path ok a a [a]
  | cons (a c b : V) (p : List V) : ok a → c ∈ nb a → Path ok c b p → Path ok a b (a :: p)

end

variable {V : Type u} [DecidableEq V] {M : Type w}

/-- The search for some vertices, one after the other until one of them leads to the goal, with the
    marks before and after. -/
inductive Tries (C : Colours M) (nb : V → List V) (goal : V) :
    List V → (V → M) → Bool → (V → M) → Prop
  | nil (m : V → M) : Tries C nb goal [] m false m
  | goal (v : V) (L : List V) (m : V → M) : m goal = C.path → Tries C nb goal (v :: L) m true m
  | closed (v : V) (L : List V) (m m' : V → M) (b : Bool) :
      m goal ≠ C.path → m v ≠ C.free → Tries C nb goal L m b m' →
      Tries C nb goal (v :: L) m b m'
  | found (v : V) (L : List V) (m m' : V → M) :
      m goal ≠ C.path → m v = C.free →
      Tries C nb goal (nb v) (Function.update m v C.path) true m' →
      Tries C nb goal (v :: L) m true m'
  | dead (v : V) (L : List V) (m mid m' : V → M) (b : Bool) :
      m goal ≠ C.path → m v = C.free →
      Tries C nb goal (nb v) (Function.update m v C.path) false mid →
      Tries C nb goal L (Function.update mid v C.dead) b m' →
      Tries C nb goal (v :: L) m b m'

variable {C : Colours M} {nb : V → List V} {goal : V} {L : List V} {m m' : V → M}

/-! ### Paths -/

omit [DecidableEq V] in
theorem Path.mono {ok ok' : V → Prop} (hok : ∀ v, ok v → ok' v) {a b : V} {p : List V}
    (h : Path nb ok a b p) : Path nb ok' a b p := by
  induction h with
  | single a ha => exact .single a (hok a ha)
  | cons a c b p ha hc _ ih => exact .cons a c b p (hok a ha) hc ih

omit [DecidableEq V] in
theorem Path.mem_ok {ok : V → Prop} {a b : V} {p : List V} (h : Path nb ok a b p) :
    ∀ c ∈ p, ok c := by
  induction h with
  | single a ha =>
      intro c hc
      rwa [List.mem_singleton.mp hc]
  | cons a c b p ha _ _ ih => exact List.forall_mem_cons.mpr ⟨ha, ih⟩

omit [DecidableEq V] in
/-- What is closed under the neighbours with the property has the end of a path too. -/
theorem Path.closed {ok S : V → Prop} {a b : V} {p : List V} (h : Path nb ok a b p)
    (ha : S a) (hclosed : ∀ c d, S c → d ∈ nb c → ok d → S d) : S b := by
  induction h with
  | single a _ => exact ha
  | cons a c b p _ hc hrest ih =>
      have hok : ok c := by
        cases hrest with
        | single _ hc => exact hc
        | cons _ _ _ _ hc _ _ => exact hc
      exact ih (hclosed a c ha hc hok)

/-! ### A search that fails -/

/-- The search has failed: what it has marked is dead and leads to nothing that is free. -/
structure Failed (C : Colours M) (nb : V → List V) (goal : V) (L : List V) (m m' : V → M) :
    Prop where
  change (c : V) : m' c = m c ∨ m c = C.free ∧ m' c = C.dead
  tried : ∀ v ∈ L, m' v ≠ C.free
  closed (c d : V) : m c = C.free → m' c = C.dead → d ∈ nb c → m' d ≠ C.free
  reach (c : V) : m c = C.free → m' c = C.dead →
    ∃ v ∈ L, ∃ p, Path nb (fun v => m v = C.free) v c p
  goal_eq : m' goal = m goal

omit [DecidableEq V] in
theorem Failed.ne_free (h : Failed C nb goal L m m') {c : V} (hc : m c ≠ C.free) :
    m' c ≠ C.free := by
  rcases h.change c with heq | hdead
  · rwa [heq]
  · exact absurd hdead.1 hc

omit [DecidableEq V] in
/-- What is not free keeps its mark. -/
theorem Failed.eq_of_ne_free (h : Failed C nb goal L m m') {c : V} (hc : m c ≠ C.free) :
    m' c = m c :=
  (h.change c).resolve_right (fun hdead => hc hdead.1)

omit [DecidableEq V] in
theorem Failed.path_iff (h : Failed C nb goal L m m') (c : V) :
    m' c = C.path ↔ m c = C.path := by
  rcases h.change c with heq | ⟨hfree, hdead⟩
  · rw [heq]
  · rw [hfree, hdead]
    exact iff_of_false C.dead_ne_path C.path_ne_free.symm

omit [DecidableEq V] in
/-- A vertex that is not free is passed over. -/
theorem Failed.passed {v : V} (hv : m v ≠ C.free) (h : Failed C nb goal L m m') :
    Failed C nb goal (v :: L) m m' where
  change := h.change
  tried := List.forall_mem_cons.mpr ⟨h.ne_free hv, h.tried⟩
  closed := h.closed
  reach := fun c hc hdead => by
    rcases h.reach c hc hdead with ⟨u, hu, hpath⟩
    exact ⟨u, List.mem_cons_of_mem v hu, hpath⟩
  goal_eq := h.goal_eq

theorem free_of_update {v c : V} {x : M} (hx : x ≠ C.free)
    (hc : Function.update m v x c = C.free) : c ≠ v ∧ m c = C.free := by
  by_cases hcv : c = v
  · rw [hcv, Function.update_self] at hc
    exact absurd hc hx
  · rw [Function.update_of_ne hcv] at hc
    exact ⟨hcv, hc⟩

/-- What a search below a vertex does to the other ones. -/
theorem Failed.change_of_ne {v c : V} (h : Failed C nb goal L (Function.update m v C.path) m')
    (hc : c ≠ v) : m' c = m c ∨ m c = C.free ∧ m' c = C.dead := by
  have hchange := h.change c
  rwa [Function.update_of_ne hc] at hchange

/-- What is free after a vertex has been left was free before. -/
theorem Failed.free_of_left {v c : V} (h : Failed C nb goal L (Function.update m v C.path) m')
    (hc : Function.update m' v C.dead c = C.free) : m c = C.free := by
  rcases free_of_update C.dead_ne_free hc with ⟨hcv, hfree⟩
  rcases h.change_of_ne hcv with heq | hdead
  · rw [← heq, hfree]
  · exact hdead.1

/-- A vertex from which everything has failed is dead. -/
theorem Failed.new {v : V} {mid : V → M} (hgoal : v ≠ goal) (hv : m v = C.free)
    (h : Failed C nb goal (nb v) (Function.update m v C.path) mid)
    (h' : Failed C nb goal L (Function.update mid v C.dead) m') :
    Failed C nb goal (v :: L) m m' := by
  have hdead : m' v = C.dead := by
    have hself : Function.update mid v C.dead v = C.dead := Function.update_self ..
    rw [h'.eq_of_ne_free (by rw [hself]; exact C.dead_ne_free), hself]
  -- The other vertices that are marked have been marked below this one or after it.
  have hlater {c : V} (hcv : c ≠ v) : m' c = mid c ∨ mid c = C.free ∧ m' c = C.dead := by
    have hc := h'.change c
    rwa [Function.update_of_ne hcv] at hc
  -- What is not free any more stays so to the end.
  have hkeep {c : V} (hc : mid c ≠ C.free) : m' c ≠ C.free := by
    refine h'.ne_free (fun hfree => hc ?_)
    exact (free_of_update C.dead_ne_free hfree).2
  have hfirst {c : V} (hcv : c ≠ v) (hc : m c = C.free) (hm' : m' c = C.dead) :
      mid c = C.free ∨ mid c = C.dead := by
    rcases h.change_of_ne hcv with heq | hdead
    · exact .inl (heq.trans hc)
    · exact .inr hdead.2
  refine ⟨fun c => ?_, ?_, fun c d hc hm' hd => ?_, fun c hc hm' => ?_, ?_⟩
  · by_cases hcv : c = v
    · rw [hcv]
      exact .inr ⟨hv, hdead⟩
    · rcases hlater hcv with heq | ⟨hfree, hm'⟩
      · rw [heq]
        exact h.change_of_ne hcv
      · exact .inr ⟨h.free_of_left (by rwa [Function.update_of_ne hcv]), hm'⟩
  · refine List.forall_mem_cons.mpr ⟨?_, h'.tried⟩
    rw [hdead]
    exact C.dead_ne_free
  -- The neighbours of the vertex have been tried.
  · by_cases hcv : c = v
    · exact hkeep (h.tried d (hcv ▸ hd))
    · rcases hfirst hcv hc hm' with hmid | hmid
      · exact h'.closed c d (by rwa [Function.update_of_ne hcv]) hm' hd
      · exact hkeep (h.closed c d (by rwa [Function.update_of_ne hcv]) hmid hd)
  -- A dead vertex was reached from this one, or from one of those after it.
  · by_cases hcv : c = v
    · rw [hcv]
      exact ⟨v, List.mem_cons_self, [v], .single v hv⟩
    · rcases hfirst hcv hc hm' with hmid | hmid
      · rcases h'.reach c (by rwa [Function.update_of_ne hcv]) hm' with ⟨u, hu, p, hp⟩
        exact ⟨u, List.mem_cons_of_mem v hu, p, hp.mono (fun d hd => h.free_of_left hd)⟩
      · rcases h.reach c (by rwa [Function.update_of_ne hcv]) hmid with ⟨u, hu, p, hp⟩
        refine ⟨v, List.mem_cons_self, v :: p, .cons v u c p hv hu (hp.mono (fun d hd => ?_))⟩
        exact (free_of_update C.path_ne_free hd).2
  · rw [h'.goal_eq, Function.update_of_ne hgoal.symm, h.goal_eq, Function.update_of_ne hgoal.symm]

/-- With the mark of the path on the goal the search succeeds at once. -/
theorem Tries.of_path {b : Bool} (h : Tries C nb goal L m b m') (hm : m goal = C.path)
    (hL : L ≠ []) : b = true ∧ m' = m := by
  cases h with
  | nil => exact absurd rfl hL
  | goal => exact ⟨rfl, rfl⟩
  | closed _ _ _ _ _ hgoal => exact absurd hm hgoal
  | found _ _ _ _ hgoal => exact absurd hm hgoal
  | dead _ _ _ _ _ _ hgoal => exact absurd hm hgoal

/-- A vertex that the search has left is not the goal. -/
theorem Tries.ne_goal {v : V} {b : Bool} (hnb : nb goal ≠ [])
    (h : Tries C nb goal (nb v) (Function.update m v C.path) b m') (hb : b = false) :
    v ≠ goal := by
  rintro rfl
  rcases h.of_path (Function.update_self ..) hnb with ⟨htrue, -⟩
  rw [hb] at htrue
  cases htrue

theorem Tries.failed (hnb : nb goal ≠ []) {b : Bool} (h : Tries C nb goal L m b m')
    (hb : b = false) : Failed C nb goal L m m' := by
  induction h with
  | nil m =>
      refine ⟨fun c => .inl rfl, fun v hv => ?_, fun c d hc hdead => ?_, fun c hc hdead => ?_, rfl⟩
      · exact absurd hv List.not_mem_nil
      · exact absurd (hdead.symm.trans hc) C.dead_ne_free
      · exact absurd (hdead.symm.trans hc) C.dead_ne_free
  | goal => cases hb
  | closed v L m m' b _ hv _ ih => exact (ih hb).passed hv
  | found => cases hb
  | dead v L m mid m' b _ hv hbelow _ ih ih' =>
      exact Failed.new (hbelow.ne_goal hnb rfl) hv (ih rfl) (ih' hb)

/-! ### A search that succeeds -/

/-- The search has succeeded: the vertices with the mark of the path are those that had it before
    and those of a path from one of the vertices to the goal. -/
def Reached (C : Colours M) (nb : V → List V) (goal : V) (L : List V) (m m' : V → M) : Prop :=
  ∃ v ∈ L, ∃ p, Path nb (fun v => m v = C.free) v goal p ∧ p.Nodup ∧
    ∀ c, m' c = C.path ↔ m c = C.path ∨ c ∈ p

theorem update_path_iff (m : V → M) (v c : V) :
    Function.update m v C.path c = C.path ↔ m c = C.path ∨ c = v := by
  by_cases hcv : c = v
  · rw [hcv, Function.update_self]
    exact iff_of_true rfl (.inr rfl)
  · rw [Function.update_of_ne hcv, or_iff_left hcv]

/-- The path goes on from the vertex. -/
theorem Reached.new {v : V} (hv : m v = C.free)
    (h : Reached C nb goal (nb v) (Function.update m v C.path) m') :
    Reached C nb goal (v :: L) m m' := by
  rcases h with ⟨w, hw, p, hp, hnodup, hmarks⟩
  -- The vertex has a mark when the rest of the path is found, which is free.
  have hnew : v ∉ p := fun hmem => (free_of_update C.path_ne_free (hp.mem_ok v hmem)).1 rfl
  refine ⟨v, List.mem_cons_self, v :: p, .cons v w goal p hv hw (hp.mono (fun d hd => ?_)),
    List.nodup_cons.mpr ⟨hnew, hnodup⟩, fun c => ?_⟩
  · exact (free_of_update C.path_ne_free hd).2
  · rw [hmarks, update_path_iff, List.mem_cons, or_assoc]

/-- The vertex is the goal. -/
theorem Reached.at_goal {v : V} (hgoal : v = goal) (hv : m v = C.free)
    (hm' : m' = Function.update m v C.path) : Reached C nb goal (v :: L) m m' := by
  refine ⟨v, List.mem_cons_self, [v], ?_, List.nodup_singleton v, fun c => ?_⟩
  · rw [← hgoal]
    exact .single v hv
  · rw [hm', update_path_iff, List.mem_singleton]

/-- The search goes on after a vertex that has failed. -/
theorem Reached.after {v : V} {mid : V → M} (hv : m v = C.free)
    (h : Failed C nb goal (nb v) (Function.update m v C.path) mid)
    (h' : Reached C nb goal L (Function.update mid v C.dead) m') :
    Reached C nb goal (v :: L) m m' := by
  rcases h' with ⟨w, hw, p, hp, hnodup, hmarks⟩
  refine ⟨w, List.mem_cons_of_mem v hw, p, hp.mono (fun d hd => h.free_of_left hd), hnodup,
    fun c => ?_⟩
  rw [hmarks]
  refine or_congr_left ?_
  by_cases hcv : c = v
  -- The vertex has lost the mark of the path again.
  · rw [hcv, Function.update_self, hv]
    exact iff_of_false C.dead_ne_path C.path_ne_free.symm
  · rw [Function.update_of_ne hcv, h.path_iff, Function.update_of_ne hcv]

theorem Tries.reached (hnb : nb goal ≠ []) {b : Bool} (h : Tries C nb goal L m b m')
    (hb : b = true) (hm : m goal ≠ C.path) : Reached C nb goal L m m' := by
  induction h with
  | nil => cases hb
  | goal _ _ m hgoal => exact absurd hgoal hm
  | closed v L m m' b _ _ _ ih =>
      rcases ih hb hm with ⟨w, hw, hpath⟩
      exact ⟨w, List.mem_cons_of_mem v hw, hpath⟩
  | found v L m m' _ hv hbelow ih =>
      by_cases hvg : v = goal
      -- The first call below the goal sees the mark on it.
      · have hself : Function.update m v C.path goal = C.path := by
          rw [hvg, Function.update_self]
        exact .at_goal hvg hv (hbelow.of_path hself (hvg ▸ hnb)).2
      · exact (ih rfl (by rwa [Function.update_of_ne (Ne.symm hvg)])).new hv
  | dead v L m mid m' b _ hv hbelow _ _ ih' =>
      have hvg := hbelow.ne_goal hnb rfl
      have hfailed := hbelow.failed hnb rfl
      refine (ih' hb ?_).after hv hfailed
      rw [Function.update_of_ne hvg.symm, hfailed.goal_eq, Function.update_of_ne hvg.symm]
      exact hm

/-! ### One vertex after the other -/

/-- The first vertex leads to the goal. -/
theorem Tries.cons_true {v : V} (h : Tries C nb goal [v] m true m') :
    Tries C nb goal (v :: L) m true m' := by
  cases h with
  | goal _ _ _ hgoal => exact .goal v L m hgoal
  | closed _ _ _ _ _ _ _ hnil => cases hnil
  | found _ _ _ _ hgoal hv hbelow => exact .found v L m m' hgoal hv hbelow
  | dead _ _ _ _ _ _ _ _ _ hnil => cases hnil

/-- The first vertex does not, and the others are tried. -/
theorem Tries.cons_false {v : V} {mid : V → M} {b : Bool} (h : Tries C nb goal [v] m false mid)
    (h' : Tries C nb goal L mid b m') : Tries C nb goal (v :: L) m b m' := by
  cases h with
  | closed _ _ _ _ _ hgoal hv hnil =>
      cases hnil
      exact .closed v L m m' b hgoal hv h'
  | dead _ _ _ mid' _ _ hgoal hv hbelow hnil =>
      cases hnil
      exact .dead v L m mid' m' b hgoal hv hbelow h'

omit [DecidableEq V] in
/-- After a search from a vertex that has failed, the dead vertices are those that can be
    reached. -/
theorem Failed.dead_iff {v : V} (h : Failed C nb goal [v] m m') (hm : ∀ c, m c ≠ C.dead) (c : V) :
    m' c = C.dead ↔ ∃ p, Path nb (fun v => m v = C.free) v c p := by
  have hdead {d : V} (hfree : m d = C.free) (hne : m' d ≠ C.free) : m' d = C.dead := by
    rcases h.change d with heq | hdead
    · exact absurd (heq.trans hfree) hne
    · exact hdead.2
  constructor
  · intro hc
    have hfree : m c = C.free := by
      rcases h.change c with heq | hdead
      · exact absurd (heq.symm.trans hc) (hm c)
      · exact hdead.1
    rcases h.reach c hfree hc with ⟨u, hu, hpath⟩
    rwa [List.mem_singleton.mp hu] at hpath
  · rintro ⟨p, hp⟩
    have hv : m v = C.free := by
      cases hp with
      | single _ hv => exact hv
      | cons _ _ _ _ hv _ _ => exact hv
    -- The dead vertices are closed, and the path begins with one.
    refine (hp.closed (S := fun c => m c = C.free ∧ m' c = C.dead)
      ⟨hv, hdead hv (h.tried v List.mem_cons_self)⟩ (fun c d hc hd hfree => ?_)).2
    exact ⟨hfree, hdead hfree (h.closed c d hc.1 hc.2 hd)⟩

/-- A search from a vertex succeeds if and only if there is a path to the goal. -/
theorem Tries.true_iff (hnb : nb goal ≠ []) {v : V} {b : Bool} (h : Tries C nb goal [v] m b m')
    (hpath : m goal ≠ C.path) (hdead : ∀ c, m c ≠ C.dead) :
    b = true ↔ ∃ p, Path nb (fun v => m v = C.free) v goal p := by
  constructor
  · intro hb
    rcases h.reached hnb hb hpath with ⟨u, hu, p, hp, -⟩
    rw [List.mem_singleton.mp hu] at hp
    exact ⟨p, hp⟩
  · intro hp
    by_contra hb
    have hfailed := h.failed hnb (Bool.eq_false_iff.mpr hb)
    have hgoal := (hfailed.dead_iff hdead goal).mpr hp
    rw [hfailed.goal_eq] at hgoal
    exact hdead goal hgoal

end PathSearch

end BlogSample
