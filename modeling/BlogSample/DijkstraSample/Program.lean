import BlogSample.Int32
import BlogSample.Theory.PriorityQueue
import BlogSample.Theory.Rounds
import Mathlib.Data.Finset.Insert

/-!
# Dijkstra's Algorithm

The two `Dijkstra` methods: one takes numbered vertices and a list of edges,
and gives distances; the other takes a map of named nodes, and gives the node
before each one.

Neither skips the entry of a vertex that it has visited before, so such an
entry relaxes the edges once more, with the distance the vertex had when it was
enqueued. The sums are unchecked and are compared with `int.MaxValue` where a
vertex has no distance yet. A round takes as many entries as there are in the
queue when it begins.

The queue is any `PriorityQueue`: the class is documented to give no order to
entries of one priority.

## Main definitions

* `State`: The variables of the loop.
* `initial`, `nextMap`, `relax`, `dequeue`, `dijkstra`: Numbered vertices.
* `TreeNode`, `initialNamed`, `relaxNamed`, `dequeueNamed`, `dijkstraNamed`:
  Named nodes.
-/

namespace BlogSample

namespace DijkstraSample

open DotNet

/-- The variables of the loop, for vertices of type `κ` and results of type `ρ`. -/
structure State (σ κ ρ : Type) where
  q : σ
  visited : Finset κ
  distance : Dictionary κ Int
  res : Dictionary κ ρ

section Numbered

variable {σ : Type} (P : PriorityQueue σ Int Int)

/-- `d[i]` of a `List<int>`. -/
def item (d : List Int) (i : Nat) : Except Exn Int :=
  match d[i]? with
  | some x => pure x
  | none => throw .argumentOutOfRange

/-- The body of the loop over `i` at the beginning. -/
def addVertex (t : Dictionary Int Int × Dictionary Int Int) (i : Nat) :
    Except Exn (Dictionary Int Int × Dictionary Int Int) := do
  let distance ← t.1.add i 2147483647
  let res ← t.2.add i (-1)
  pure (distance, res)

/-- The loop over `i` at the beginning. -/
def tables (n : Int) : Except Exn (Dictionary Int Int × Dictionary Int Int) :=
  (List.range n.toNat).foldlM addVertex (Dictionary.empty, Dictionary.empty)

/-- The variables before the loop. -/
def initial (n src : Int) : Except Exn (State σ Int Int) := do
  let t ← tables n
  pure
    { q := P.enqueue P.empty src 0
      visited := ∅
      distance := t.1.set src 0
      res := t.2.set src 0 }

/-- The body of the loop over the edges. -/
def addEdge (m : Dictionary Int (List (Int × Int))) (d : List Int) :
    Except Exn (Dictionary Int (List (Int × Int))) := do
  let cur ← item d 0
  let m := m.tryAdd cur []
  let nodes ← m.item cur
  let next ← item d 1
  let val ← item d 2
  pure (m.set cur (nodes ++ [(next, val)]))

/-- The loop over the edges. -/
def nextMap (edges : List (List Int)) : Except Exn (Dictionary Int (List (Int × Int))) :=
  edges.foldlM addEdge Dictionary.empty

/-- The body of the loop over `nextMap[cur]`. -/
def relax (val : Int) (s : State σ Int Int) (node : Int × Int) : Except Exn (State σ Int Int) :=
  if node.1 ∈ s.visited then pure s
  else do
    let d ← s.distance.item node.1
    if wrap (val + node.2) < d then
      pure
        { s with
          distance := s.distance.set node.1 (wrap (val + node.2))
          q := P.enqueue s.q node.1 (wrap (val + node.2))
          res := s.res.set node.1 (wrap (val + node.2)) }
    else pure s

/-- The body of the loop over `i`. `TryDequeue` on an empty queue sets both
    variables to zero. -/
def dequeue (nextMap : Dictionary Int (List (Int × Int))) (s : State σ Int Int) :
    Except Exn (State σ Int Int) :=
  let ((cur, val), q) := (P.tryDequeue s.q).getD ((0, 0), s.q)
  let s := { s with q := q, visited := insert cur s.visited }
  match nextMap.tryGetValue cur with
  | none => pure s
  | some nodes => nodes.foldlM (relax P val) s

/-- `Dijkstra(n, edges, src)`. -/
def dijkstra (fuel : Nat) (n : Int) (edges : List (List Int)) (src : Int) :
    Except Exn (Option (Dictionary Int Int)) := do
  let s ← initial P n src
  let m ← nextMap edges
  let t ← Rounds.whileLoop (fun s => P.count s.q) (dequeue P m) fuel s
  pure (t.map State.res)

end Numbered

/-- `TreeNode`. -/
inductive TreeNode where
  | mk (name : String) (val : Int) (next : Option (List TreeNode))

namespace TreeNode

def name : TreeNode → String
  | mk name _ _ => name

def val : TreeNode → Int
  | mk _ val _ => val

def next : TreeNode → Option (List TreeNode)
  | mk _ _ next => next

end TreeNode

section Named

variable {σ : Type} (P : PriorityQueue σ TreeNode Int)

/-- The body of the loop over the map. -/
def addName (s : String) (t : Dictionary String Int × Dictionary String String)
    (m : String × TreeNode) : Except Exn (Dictionary String Int × Dictionary String String) := do
  let dinstnace ← if m.1 = s then t.1.add s 0 else t.1.add m.1 2147483647
  let res ← t.2.add m.1 ""
  pure (dinstnace, res)

/-- The variables before the loop. -/
def initialNamed (map : Dictionary String TreeNode) (s : String) :
    Except Exn (State σ String String) := do
  let node ← map.item s
  let t ← map.entries.foldlM (addName s) (Dictionary.empty, Dictionary.empty)
  pure { q := P.enqueue P.empty node 0, visited := ∅, distance := t.1, res := t.2 }

/-- The body of the loop over `cur.next`. -/
def relaxNamed (map : Dictionary String TreeNode) (cur : String) (dist : Int)
    (s : State σ String String) (n : TreeNode) : Except Exn (State σ String String) :=
  if n.name ∈ s.visited then pure s
  else do
    let d ← s.distance.item n.name
    if wrap (dist + n.val) < d then do
      let node ← map.item n.name
      pure
        { s with
          q := P.enqueue s.q node (wrap (dist + n.val))
          distance := s.distance.set n.name (wrap (dist + n.val))
          res := s.res.set n.name cur }
    else pure s

/-- The body of the loop over `i`. `TryDequeue` on an empty queue sets `cur` to
    `null`. -/
def dequeueNamed (map : Dictionary String TreeNode) (s : State σ String String) :
    Except Exn (State σ String String) :=
  match P.tryDequeue s.q with
  | none => throw .nullReference
  | some ((cur, dist), q) =>
      match cur.next with
      | none => throw .nullReference
      | some next =>
          next.foldlM (relaxNamed P map cur.name dist)
            { s with q := q, visited := insert cur.name s.visited }

/-- `Dijkstra(map, s)`. -/
def dijkstraNamed (fuel : Nat) (map : Dictionary String TreeNode) (s : String) :
    Except Exn (Option (Dictionary String String)) := do
  let s ← initialNamed P map s
  let t ← Rounds.whileLoop (fun s => P.count s.q) (dequeueNamed P map) fuel s
  pure (t.map State.res)

end Named

end DijkstraSample

end BlogSample
