import BlogSample.Array2
import BlogSample.Theory.Fuel
import BlogSample.Theory.PathSearch
import Mathlib.Data.Fintype.Prod

/-!
# The Maze

`SearchMap`, which looks for a way to the cell (6, 6). A cell of the map is free,
a wall, on the way, or known to be a dead end.

The border has walls, so a cell that is free has four neighbours on the map. Each
call below another one has a free cell less.

## Main definitions

* `searchMap`: The function.
* `neighbours`: The cells in the four directions.
* `Bordered`: The cells on the border are not free.

## Theorems

* `searchMap_goal`, `searchMap_closed`, `searchMap_free`: The branches.
* `tryAll_follows`, `searchMap_follows`: The calls follow the search.
* `searchMap_exact`: What is found, and what the map shows then.
-/

namespace BlogSample

namespace Maze

open DotNet Fuel PathSearch

variable {rows cols : ℕ}

/-- A chain of `if` and `else if` over some calls, which ends at the first one that returns
    `true`. -/
def tryAll (search : Array2 Int rows cols → Int → Int → Call Exn (Bool × Array2 Int rows cols)) :
    Array2 Int rows cols → List (Int × Int) → Call Exn (Bool × Array2 Int rows cols)
  | map, [] => pure (false, map)
  | map, c :: cs => do
      let (found, map) ← search map c.1 c.2
      if found then pure (true, map) else tryAll search map cs

/-- `SearchMap(map, x, y)`, with the map after it. -/
def searchMap : ℕ → Array2 Int rows cols → Int → Int → Call Exn (Bool × Array2 Int rows cols)
  | 0, _, _, _ => outOfFuel
  | fuel + 1, map, x, y => do
      -- The goal is looked at before the cell.
      let goal ← map.item 6 6
      if goal = 2 then
        pure (true, map)
      else
        let cell ← map.item y x
        if cell = 0 then
          let map ← map.assign y x 2
          let (found, map) ←
            tryAll (searchMap fuel) map [(x, y + 1), (x + 1, y), (x - 1, y), (x, y - 1)]
          if found then
            pure (true, map)
          else
            let map ← map.assign y x 3
            pure (false, map)
        else
          pure (false, map)

/-- The body of the loop of `CreateWall`. -/
def wallAt (map : Array2 Int rows cols) (i : Int) : Except Exn (Array2 Int rows cols) := do
  let map ← map.assign 0 i 1
  let map ← map.assign 7 i 1
  let map ← map.assign i 0 1
  map.assign i 7 1

/-- `CreateWall(map)`. -/
def createWall (map : Array2 Int rows cols) : Except Exn (Array2 Int rows cols) := do
  let map ← (upTo 0 8).foldlM wallAt map
  let map ← map.assign 2 1 1
  let map ← map.assign 2 2 1
  let map ← map.assign 2 3 1
  let map ← map.assign 2 4 1
  map.assign 2 5 1

/-! ### Cells -/

/-- The row and the column of a cell. -/
abbrev Cell (rows cols : ℕ) := Fin rows × Fin cols

/-- The cell with these coordinates, if there is one. -/
def cellAt (y x : Int) : Option (Cell rows cols) :=
  if h : Array2.InBounds rows cols y x then
    some (⟨y.toNat, h.row⟩, ⟨x.toNat, h.col⟩)
  else none

/-- The cells below, to the right, to the left and above. -/
def neighbours (c : Cell rows cols) : List (Cell rows cols) :=
  [cellAt (c.1.val + 1) c.2.val, cellAt c.1.val (c.2.val + 1), cellAt c.1.val (c.2.val - 1),
    cellAt (c.1.val - 1) c.2.val].filterMap id

/-- What a call is for. -/
def arguments (c : Cell rows cols) : Int × Int :=
  (c.2.val, c.1.val)

/-- What the cells are. -/
def marks (map : Array2 Int rows cols) (c : Cell rows cols) : Int :=
  map c.1 c.2

/-- Free, on the way, and a dead end. -/
def colours : Colours Int where
  free := 0
  path := 2
  dead := 3
  path_ne_free := by decide
  dead_ne_free := by decide
  dead_ne_path := by decide

/-- The cell is not on the border. -/
def Inner (c : Cell rows cols) : Prop :=
  (0 < c.1.val ∧ c.1.val + 1 < rows) ∧ 0 < c.2.val ∧ c.2.val + 1 < cols

instance (c : Cell rows cols) : Decidable (Inner c) :=
  inferInstanceAs (Decidable ((0 < c.1.val ∧ c.1.val + 1 < rows) ∧ 0 < c.2.val ∧
    c.2.val + 1 < cols))

/-- The cells on the border are not free. -/
def Bordered (map : Array2 Int rows cols) : Prop :=
  ∀ c : Cell rows cols, map c.1 c.2 = 0 → Inner c

/-- How many cells are free. -/
def freeCount (map : Array2 Int rows cols) : ℕ :=
  (Finset.univ.filter (fun c : Cell rows cols => map c.1 c.2 = 0)).card

theorem exists_cellAt (rows cols : ℕ) {y x : Int} (hy : 0 ≤ y ∧ y < rows) (hx : 0 ≤ x ∧ x < cols) :
    ∃ c : Cell rows cols, cellAt y x = some c ∧ arguments c = (x, y) := by
  refine ⟨(⟨y.toNat, by omega⟩, ⟨x.toNat, by omega⟩), ?_, Prod.ext ?_ ?_⟩
  · rw [cellAt, dif_pos ⟨⟨hy.1, by omega⟩, hx.1, by omega⟩]
  · exact Int.toNat_of_nonneg hx.1
  · exact Int.toNat_of_nonneg hy.1

/-- A cell that is not on the border has its four neighbours, in the order of the calls. -/
theorem map_arguments {c : Cell rows cols} (hc : Inner c) :
    (neighbours c).map arguments =
      [((c.2.val : Int), (c.1.val : Int) + 1), ((c.2.val : Int) + 1, (c.1.val : Int)),
        ((c.2.val : Int) - 1, (c.1.val : Int)), ((c.2.val : Int), (c.1.val : Int) - 1)] := by
  -- All four are on the map, so that none of them is left out.
  rcases hc with ⟨⟨hup, hdown⟩, hleft, hright⟩
  rcases exists_cellAt rows cols (y := c.1.val + 1) (x := c.2.val) (by omega)
    (by omega) with ⟨below, hbelow, hbelow'⟩
  rcases exists_cellAt rows cols (y := c.1.val) (x := c.2.val + 1) (by omega)
    (by omega) with ⟨after, hafter, hafter'⟩
  rcases exists_cellAt rows cols (y := c.1.val) (x := c.2.val - 1) (by omega)
    (by omega) with ⟨before, hbefore, hbefore'⟩
  rcases exists_cellAt rows cols (y := c.1.val - 1) (x := c.2.val) (by omega)
    (by omega) with ⟨above, habove, habove'⟩
  have hlist : neighbours c = [below, after, before, above] := by
    rw [neighbours, hbelow, hafter, hbefore, habove]
    rfl
  rw [hlist]
  simp only [List.map_cons, List.map_nil, hbelow', hafter', hbefore', habove']

theorem marks_write (map : Array2 Int rows cols) (c : Cell rows cols) (v : Int) :
    marks (map.write c.1 c.2 v) = Function.update (marks map) c v := by
  funext d
  rw [marks, Array2.write_apply]
  by_cases hd : d = c
  · rw [hd, Function.update_self, if_pos ⟨rfl, rfl⟩]
  · rw [Function.update_of_ne hd, if_neg (fun h => hd (Prod.ext h.1 h.2)), marks]

/-! ### The calls -/

theorem freeCount_le {map map' : Array2 Int rows cols}
    (h : ∀ c, marks map' c = 0 → marks map c = 0) : freeCount map' ≤ freeCount map := by
  refine Finset.card_le_card (fun c hc => ?_)
  rw [Finset.mem_filter] at hc ⊢
  exact ⟨hc.1, h c hc.2⟩

/-- A free cell that gets a mark is one free cell less. -/
theorem freeCount_write_lt {map : Array2 Int rows cols} {c : Cell rows cols} {v : Int}
    (hc : marks map c = 0) (hv : v ≠ 0) : freeCount (map.write c.1 c.2 v) < freeCount map := by
  have hother (d : Cell rows cols) (hd : marks (map.write c.1 c.2 v) d = 0) :
      d ≠ c ∧ marks map d = 0 := by
    rw [marks_write] at hd
    exact free_of_update (C := colours) hv hd
  refine Finset.card_lt_card ((Finset.ssubset_iff_of_subset (fun d hd => ?_)).mpr ⟨c, ?_, ?_⟩)
  · rw [Finset.mem_filter] at hd ⊢
    exact ⟨hd.1, (hother d hd.2).2⟩
  · exact Finset.mem_filter.mpr ⟨Finset.mem_univ c, hc⟩
  · exact fun hd => (hother c (Finset.mem_filter.mp hd).2).1 rfl

theorem Bordered.write {map : Array2 Int rows cols} (h : Bordered map) {c : Cell rows cols}
    {v : Int} (hv : v ≠ 0) : Bordered (map.write c.1 c.2 v) := by
  intro d hd
  change marks (map.write c.1 c.2 v) d = 0 at hd
  rw [marks_write] at hd
  exact h d (free_of_update (C := colours) hv hd).2

/-- With fuel for the free cells the calls for some cells do what the search for them does. -/
def Follows (goal : Cell rows cols) (map : Array2 Int rows cols)
    (call : ℕ → Call Exn (Bool × Array2 Int rows cols)) (L : List (Cell rows cols)) : Prop :=
  ∃ b map', (∀ fuel, freeCount map < fuel → Returns (call fuel) (b, map')) ∧
    Tries colours neighbours goal L (marks map) b (marks map')

/-- The calls for some cells, if the call for each one follows the search. -/
theorem tryAll_follows {goal : Cell rows cols} (hnb : neighbours goal ≠ []) {k : ℕ}
    (hcall : ∀ (map : Array2 Int rows cols) (c : Cell rows cols), Bordered map → freeCount map < k →
      Follows goal map (fun fuel => searchMap fuel map c.2.val c.1.val) [c])
    (L : List (Cell rows cols)) {map : Array2 Int rows cols} (hmap : Bordered map)
    (hk : freeCount map < k) :
    Follows goal map (fun fuel => tryAll (searchMap fuel) map (L.map arguments)) L := by
  induction L generalizing map with
  | nil => exact ⟨false, map, fun fuel _ => .pure _, .nil _⟩
  | cons c L ih =>
      rcases hcall map c hmap hk with ⟨b, mid, hret, htries⟩
      cases b with
      | true =>
          refine ⟨true, mid, fun fuel hfuel => ?_, htries.cons_true⟩
          exact (hret fuel hfuel).bind (.pure _)
      | false =>
          -- The marks that are left behind do not make a cell free.
          have hfailed := htries.failed hnb rfl
          have hfree (d : Cell rows cols) (hd : marks mid d = 0) : marks map d = 0 := by
            by_contra hne
            exact hfailed.ne_free hne hd
          have hle := freeCount_le hfree
          rcases ih (fun d hd => hmap d (hfree d hd)) (lt_of_le_of_lt hle hk) with
            ⟨b, map', hret', htries'⟩
          refine ⟨b, map', fun fuel hfuel => ?_, htries.cons_false htries'⟩
          exact (hret fuel hfuel).bind (hret' fuel (lt_of_le_of_lt hle hfuel))

theorem item_marks (map : Array2 Int rows cols) (c : Cell rows cols) {y x : Int}
    (hy : y = c.1.val) (hx : x = c.2.val) : map.item y x = .ok (marks map c) :=
  map.item_fin c.1 c.2 hy hx

section Branches

variable {goal : Cell rows cols} (hgoal : goal.1.val = 6 ∧ goal.2.val = 6)
  {map : Array2 Int rows cols} (c : Cell rows cols) (fuel : ℕ)

include hgoal

/-- The goal has the mark of the way before the cell is looked at. -/
theorem searchMap_goal (hpath : marks map goal = 2) :
    Returns (searchMap (fuel + 1) map c.2.val c.1.val) (true, map) := by
  rw [searchMap]
  refine (Returns.lift (item_marks map goal (by omega) (by omega))).bind ?_
  rw [if_pos hpath]
  exact .pure _

/-- The cell is not free. -/
theorem searchMap_closed (hpath : marks map goal ≠ 2) (hc : marks map c ≠ 0) :
    Returns (searchMap (fuel + 1) map c.2.val c.1.val) (false, map) := by
  rw [searchMap]
  refine (Returns.lift (item_marks map goal (by omega) (by omega))).bind ?_
  rw [if_neg hpath]
  refine (Returns.lift (item_marks map c rfl rfl)).bind ?_
  rw [if_neg hc]
  exact .pure _

/-- The cell is free, and the calls for its neighbours return. If none of them has found the goal,
    the cell is a dead end. -/
theorem searchMap_free (hmap : Bordered map) (hpath : marks map goal ≠ 2) (hc : marks map c = 0)
    {b : Bool} {mid : Array2 Int rows cols}
    (htry : Returns (tryAll (searchMap fuel) (map.write c.1 c.2 2) ((neighbours c).map arguments))
      (b, mid)) :
    Returns (searchMap (fuel + 1) map c.2.val c.1.val)
      (b, if b then mid else mid.write c.1 c.2 3) := by
  rw [map_arguments (hmap c hc)] at htry
  rw [searchMap]
  refine (Returns.lift (item_marks map goal (by omega) (by omega))).bind ?_
  rw [if_neg hpath]
  refine (Returns.lift (item_marks map c rfl rfl)).bind ?_
  rw [if_pos hc]
  refine (Returns.lift (map.assign_fin c.1 c.2 2 rfl rfl)).bind (htry.bind ?_)
  cases b with
  | true => exact .pure _
  | false => exact (Returns.lift (mid.assign_fin c.1 c.2 3 rfl rfl)).bind (.pure _)

end Branches

/-- The call for a cell follows the search. The calls for its neighbours have a free cell less. -/
theorem searchMap_follows {goal : Cell rows cols} (hgoal : goal.1.val = 6 ∧ goal.2.val = 6)
    (hnb : neighbours goal ≠ []) {map : Array2 Int rows cols} (hmap : Bordered map)
    (c : Cell rows cols) :
    Follows goal map (fun fuel => searchMap fuel map c.2.val c.1.val) [c] := by
  induction hn : freeCount map using Nat.strongRecOn generalizing map c with
  | ind n ih =>
      by_cases hpath : marks map goal = 2
      · exact ⟨true, map, forall_lt_of_succ (fun fuel _ => searchMap_goal hgoal c fuel hpath),
          .goal c [] _ hpath⟩
      · by_cases hfree : marks map c = 0
        · have hlt := freeCount_write_lt hfree (v := 2) (by decide)
          rcases tryAll_follows hnb (k := n)
            (fun map' d hmap' hk => ih (freeCount map') hk hmap' d rfl) (neighbours c)
            (hmap.write (c := c) (v := 2) (by decide)) (hn ▸ hlt) with ⟨b, mid, hret, htries⟩
          rw [marks_write] at htries
          -- The mark on the cell itself leaves fuel for the calls below it.
          refine ⟨b, _, forall_lt_of_succ (fun fuel hfuel =>
            searchMap_free hgoal c fuel hmap hpath hfree (hret fuel (by omega))), ?_⟩
          cases b with
          | true => exact .found c [] _ _ hpath hfree htries
          | false =>
              rw [if_neg Bool.false_ne_true, marks_write]
              exact .dead c [] _ _ _ _ hpath hfree htries (.nil _)
        · exact ⟨false, map,
            forall_lt_of_succ (fun fuel _ => searchMap_closed hgoal c fuel hpath hfree),
            .closed c [] _ _ _ hpath hfree (.nil _)⟩

/-! ### The maze -/

/-- The cell (6, 6) of a map that has it inside its border. -/
def goalCell (hrows : 7 < rows) (hcols : 7 < cols) : Cell rows cols :=
  (⟨6, by omega⟩, ⟨6, by omega⟩)

/-- A path of free cells in the four directions. -/
def FreePath (map : Array2 Int rows cols) (a b : Cell rows cols) (p : List (Cell rows cols)) :
    Prop :=
  Path neighbours (fun c => map c.1 c.2 = 0) a b p

theorem neighbours_goalCell (hrows : 7 < rows) (hcols : 7 < cols) :
    neighbours (goalCell hrows hcols) ≠ [] := by
  intro hnil
  have hargs := map_arguments (c := goalCell hrows hcols)
    ⟨⟨Nat.succ_pos 5, hrows⟩, Nat.succ_pos 5, hcols⟩
  rw [hnil] at hargs
  cases hargs

/-- On a map of free cells and walls whose border are walls, the search from any cell ends. It
    finds a way to (6, 6) if and only if there is one, and the map then shows a way that takes no
    cell twice; otherwise it shows everything that can be reached. -/
theorem searchMap_exact {map : Array2 Int rows cols} (hcells : ∀ i j, map i j = 0 ∨ map i j = 1)
    (hborder : ∀ c : Cell rows cols, ¬ Inner c → map c.1 c.2 = 1) (hrows : 7 < rows)
    (hcols : 7 < cols) (start : Cell rows cols) :
    ∃ found map', Terminates (fun fuel => searchMap fuel map start.2.val start.1.val)
        (found, map') ∧
      (found = true ↔ ∃ p, FreePath map start (goalCell hrows hcols) p) ∧
      (found = true → ∃ p, FreePath map start (goalCell hrows hcols) p ∧ p.Nodup ∧
        ∀ i j, map' i j = 2 ↔ (i, j) ∈ p) ∧
      (found = false → (∀ i j, map' i j = 3 ↔ ∃ p, FreePath map start (i, j) p) ∧
        ∀ i j, map' i j ≠ 2) := by
  have hnb := neighbours_goalCell hrows hcols
  have hmap : Bordered map := by
    intro c hc
    by_contra hinner
    rw [hborder c hinner] at hc
    cases hc
  -- There are no marks yet.
  have hpath (c : Cell rows cols) : marks map c ≠ 2 := by
    intro hc
    rcases hcells c.1 c.2 with h | h
    · cases h.symm.trans hc
    · cases h.symm.trans hc
  have hdead (c : Cell rows cols) : marks map c ≠ 3 := by
    intro hc
    rcases hcells c.1 c.2 with h | h
    · cases h.symm.trans hc
    · cases h.symm.trans hc
  have hgoal : (goalCell hrows hcols).1.val = 6 ∧ (goalCell hrows hcols).2.val = 6 := ⟨rfl, rfl⟩
  rcases searchMap_follows hgoal hnb hmap start with ⟨found, map', hret, htries⟩
  refine ⟨found, map', ⟨freeCount map, hret⟩, htries.true_iff hnb (hpath _) hdead,
    fun hfound => ?_, fun hfound => ⟨fun i j => ?_, fun i j hij => ?_⟩⟩
  · rcases htries.reached hnb hfound (hpath _) with ⟨v, hv, p, hp, hnodup, hmarks⟩
    rw [List.mem_singleton.mp hv] at hp
    refine ⟨p, hp, hnodup, fun i j => ?_⟩
    exact (hmarks (i, j)).trans (or_iff_right (hpath (i, j)))
  · exact (htries.failed hnb hfound).dead_iff hdead (i, j)
  · exact hpath (i, j) (((htries.failed hnb hfound).path_iff (i, j)).mp hij)

/-- The maze of `Main`. -/
theorem searchMap_exact_main : ∃ map : Array2 Int 8 8, createWall (fun _ _ => 0) = .ok map ∧
    ∃ found map', Terminates (fun fuel => searchMap fuel map 1 1) (found, map') ∧
      (found = true ↔ ∃ p, FreePath map (1, 1) (goalCell (by decide) (by decide)) p) ∧
      (found = true → ∃ p, FreePath map (1, 1) (goalCell (by decide) (by decide)) p ∧ p.Nodup ∧
        ∀ i j, map' i j = 2 ↔ (i, j) ∈ p) ∧
      (found = false → (∀ i j, map' i j = 3 ↔ ∃ p, FreePath map (1, 1) (i, j) p) ∧
        ∀ i j, map' i j ≠ 2) := by
  have hmap : ∃ map : Array2 Int 8 8, createWall (fun _ _ => 0) = .ok map ∧
      (∀ i j, map i j = 0 ∨ map i j = 1) ∧
      ∀ c : Cell 8 8, ¬ Inner c → map c.1 c.2 = 1 :=
    ⟨_, rfl, by decide, by decide⟩
  rcases hmap with ⟨map, hwall, hcells, hborder⟩
  exact ⟨map, hwall, searchMap_exact hcells hborder (by decide) (by decide) (1, 1)⟩

end Maze

end BlogSample
