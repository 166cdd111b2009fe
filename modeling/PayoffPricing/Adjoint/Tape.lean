import PayoffPricing.Scalar
import PayoffPricing.Adjoint.Arena
/-!
The tape of reverse differentiation. Every recorded operation is a node with weighted edges to its
inputs and one or more adjoints; a sweep walks the nodes backward and pushes each adjoint along the
edges. The checkpoint separates what is recorded once from what is recorded per path.
-/

namespace PayoffPricing

/-- Refusals of the checked entry points of a tape. -/
inductive TapeError where
  | notEmpty
  | adjointCount (count : Nat)
  | notOnTape
deriving DecidableEq, Repr

namespace TapeError

def message : TapeError → String
  | notEmpty => "Tape is not empty"
  | adjointCount count => s!"Invalid adjoint count or index: {count}"
  | notOnTape => "Node is not on the tape"

end TapeError

/-- A weighted dependency; an input without a target is a constant. -/
structure Edge (R : Type) where
  weight : R
  target : Option Position

/-- A recorded operation: where its edges and its adjoints are kept. -/
structure Node where
  edgeCount : Nat
  edges : Position
  adjoints : Position

structure Tape (R : Type) where
  nodes : Arena Node
  edges : Arena (Edge R)
  adjoints : Arena R
  adjointCount : Nat

namespace Edge

variable {R : Type} [Scalar R]

def isActive (e : Edge R) : Bool := e.target.isSome

/-- Puts an edge before the first one whose target comes later; constants go first. -/
def insertByTarget (e : Edge R) : List (Edge R) → List (Edge R)
  | [] => [e]
  | d :: ds =>
    let before := match e.target, d.target with
      | none, _ => true
      | some _, none => false
      | some p, some q => decide (p ≤ q)
    if before then e :: d :: ds else d :: insertByTarget e ds

/-- Edges in the order of their targets; edges with one target keep their order. -/
def sortByTarget (edges : List (Edge R)) : List (Edge R) := edges.foldr insertByTarget []

/-- Adds up neighbouring edges with one target, from left to right. -/
def sumRuns : List (Edge R) → List (Edge R)
  | [] => []
  | [e] => [e]
  | e :: f :: rest =>
    if e.target = f.target then sumRuns (⟨e.weight + f.weight, e.target⟩ :: rest)
    else e :: sumRuns (f :: rest)
termination_by es => es.length

/-- One edge for each target, in the order of the targets; constants are dropped. -/
def merge (edges : List (Edge R)) : List (Edge R) :=
  sumRuns ((sortByTarget edges).filter isActive)

end Edge

namespace Tape

variable {R : Type} [Scalar R]

/-- An empty tape with one adjoint per node; edges get four times the room of nodes. -/
def withBlockSize (blockSize : Nat) (h : 0 < blockSize) : Tape R where
  nodes := .empty blockSize h
  edges := .empty (blockSize * 4) (by omega)
  adjoints := .empty blockSize h
  adjointCount := 1

def empty : Tape R := withBlockSize 16384 (by decide)

/-- How many words an edge takes. -/
def edgeWords : Nat := 4

/-- An empty tape; blocks without room are refused, and blocks that cannot be stored. -/
def ofBlockSize (blockSize : Nat) : Except Misuse (Tape R) :=
  if h : 0 < blockSize then do
    Word.demand (blockSize * 4 * edgeWords)
    return withBlockSize blockSize h
  else .error .emptyBlock

def length (t : Tape R) : Nat := t.nodes.length

def isEmpty (t : Tape R) : Bool := t.nodes.isEmpty

def contains (t : Tape R) (id : Position) : Bool := t.nodes.contains id

/-- Fixes the number of adjoints per node, before anything is recorded. -/
def setAdjointCount (t : Tape R) (count : Nat) : Except TapeError (Tape R) :=
  if count = 0 then .error (.adjointCount count)
  else if t.isEmpty then .ok { t with adjointCount := count }
  else .error .notEmpty

/-- Stores the adjoints of a node, all zero; a single one is no reservation. -/
def pushAdjoints (adjoints : Arena R) (count : Nat) : Position × Arena R :=
  if count = 1 then adjoints.push 0 else adjoints.reserve count 0

/-- Stores a node with `edgeCount` edges from `edges` on. -/
def pushNode (t : Tape R) (edgeCount : Nat) (place : Position) : Position × Tape R :=
  let ⟨nodes, edges, adjoints, count⟩ := t
  let (slot, adjoints) := pushAdjoints adjoints count
  let (id, nodes) := nodes.push ⟨edgeCount, place, slot⟩
  (id, ⟨nodes, edges, adjoints, count⟩)

/-- A constant with weight zero, the content of a slot nobody has written. -/
def vacant : Edge R := ⟨0, none⟩

/-- Records an operation with the given inputs; constants are dropped. -/
def record (t : Tape R) (candidates : List (Edge R)) : Position × Tape R :=
  let ⟨nodes, edges, adjoints, count⟩ := t
  let active := candidates.filter Edge.isActive
  let (slot, edges) := edges.reserve active.length vacant
  pushNode ⟨nodes, edges.write slot active, adjoints, count⟩ active.length slot

/-- Records an input. -/
def recordLeaf (t : Tape R) : Position × Tape R := t.record []

/--
Records a whole formula as one node. Room for all candidates is reserved first; what merging saves
is given back.
-/
def recordFolded (t : Tape R) (candidates : List (Edge R)) : Position × Tape R :=
  let ⟨nodes, edges, adjoints, count⟩ := t
  let kept := Edge.merge candidates
  let (slot, edges) := edges.reserve candidates.length vacant
  let edges := (edges.write slot kept).giveBack (candidates.length - kept.length)
  pushNode ⟨nodes, edges, adjoints, count⟩ kept.length slot

/-- Records a node, where a block can have room for its adjoints. -/
def tryRecord (t : Tape R) (recording : Tape R → Position × Tape R) :
    Except Misuse (Position × Tape R) := do
  Word.demand t.adjointCount
  return recording t

def node? (t : Tape R) (id : Position) : Option Node := t.nodes.get? id

/-- The edges of a node. -/
def edges? (t : Tape R) (id : Position) : Option (List (Edge R)) := do
  let node ← t.node? id
  t.edges.slice? node.edges node.edgeCount

/-- The place of the `k`-th adjoint of a node. -/
def adjointPlace? (t : Tape R) (id : Position) (k : Nat) : Option Position := do
  let node ← t.node? id
  let adjoints ← t.adjoints.slice? node.adjoints t.adjointCount
  if k < adjoints.length then some (node.adjoints.shift k) else none

def adjoint? (t : Tape R) (id : Position) (k : Nat) : Option R := do
  t.adjoints.get? (← t.adjointPlace? id k)

/-- A read that reports dropped nodes and missing adjoints. -/
def tryAdjoint (t : Tape R) (id : Position) (k : Nat) : Except (Fault TapeError) R :=
  if !t.contains id then .error (.error .notOnTape)
  else if k ≥ t.adjointCount then .error (.error (.adjointCount k))
  else Fault.ofOption (t.adjoint? id k)

/-- Changes the `k`-th adjoint of a node. -/
def modifyAdjoint (t : Tape R) (id : Position) (k : Nat) (f : R → R) : Except Misuse (Tape R) :=
  match t.adjointPlace? id k with
  | some place => .ok { t with adjoints := t.adjoints.modify place f }
  | none => .error .outOfRange

def setAdjoint (t : Tape R) (id : Position) (value : R) : Except Misuse (Tape R) :=
  t.modifyAdjoint id 0 fun _ => value

def resetAdjoints (t : Tape R) : Tape R := { t with adjoints := t.adjoints.map fun _ => 0 }

/-- Adjoints up to this size are not propagated. -/
def negligible : R := 1e-300

/-- Adds `adjoint * weight` to one adjoint of each target, which `slot` finds from the first one. -/
def pushEdges (nodes : Arena Node) (slot : Position → Position) (adjoint : R) :
    List (Edge R) → Arena R → Except Misuse (Arena R)
  | [], adjoints => .ok adjoints
  | e :: es, adjoints =>
    match e.target with
    | none => pushEdges nodes slot adjoint es adjoints
    | some target =>
      match nodes.get? target with
      | none => .error .outOfRange
      | some node =>
        let place := slot node.adjoints
        match adjoints.get? place with
        | none => .error .outOfRange
        | some _ =>
          pushEdges nodes slot adjoint es (adjoints.modify place fun a => a + adjoint * e.weight)

/-- Pushes one adjoint of a node along its edges and clears it. -/
def pushAdjoint (t : Tape R) (tiny : R) (node : Node) (slot : Position → Position) (adjoints : Arena R) :
    Except Misuse (Arena R) :=
  let place := slot node.adjoints
  match adjoints.get? place, t.edges.slice? node.edges node.edgeCount with
  | some adjoint, some edges =>
    if Scalar.abs adjoint ≤ tiny then .ok adjoints
    else do
      let adjoints ← pushEdges t.nodes slot adjoint edges adjoints
      return adjoints.modify place fun _ => 0
  | _, _ => .error .outOfRange

/-- Pushes all adjoints of a node; leaves keep theirs. A single adjoint is where the node says, without counting. -/
def pushNodeAdjoints (t : Tape R) (tiny : R) (node : Node) (adjoints : Arena R) :
    Except Misuse (Arena R) :=
  if node.edgeCount = 0 then .ok adjoints
  else if t.adjointCount = 1 then t.pushAdjoint tiny node id adjoints
  else (List.range t.adjointCount).foldlM (fun adjoints k => t.pushAdjoint tiny node (·.shift k) adjoints) adjoints

/-- Pushes the adjoints of the given nodes, in this order. -/
def sweep (t : Tape R) (nodes : List Node) : Except Misuse (Tape R) :=
  let tiny := negligible
  match nodes.foldlM (fun adjoints node => t.pushNodeAdjoints tiny node adjoints) t.adjoints with
  | .ok adjoints => .ok { t with adjoints := adjoints }
  | .error e => .error e

/-- Walks the nodes at positions in `[first, last)` backward. -/
def sweepRange (t : Tape R) (first last : Position) : Except Misuse (Tape R) :=
  t.sweep ((t.nodes.range first last).reverse.map (·.2))

/-- Pushes the adjoints of one node. -/
def propagateOne (t : Tape R) (id : Position) : Except Misuse (Tape R) :=
  match t.node? id with
  | some node => t.sweep [node]
  | none => .error .outOfRange

/-- Propagates from a node back to an earlier one, both included. -/
def propagate (t : Tape R) (origin target : Position) : Except Misuse (Tape R) :=
  if !t.contains origin then .error .startOffTape
  else if ¬ target ≤ origin then .error .forwardRange
  else t.sweepRange target origin.next

/-- Propagates from a node back to the first one. -/
def propagateToStart (t : Tape R) (origin : Position) : Except Misuse (Tape R) :=
  if !t.contains origin then .error .startOffTape
  else t.sweepRange .start origin.next

/-- Propagates from a node back to the checkpoint. -/
def propagateToMark (t : Tape R) (origin : Position) : Except Misuse (Tape R) :=
  if !t.contains origin then .error .startOffTape
  else if ¬ t.nodes.mark ≤ origin then .error .startBeforeMark
  else t.sweepRange t.nodes.mark origin.next

/-- Propagates all nodes before the checkpoint. -/
def propagateMarkToStart (t : Tape R) : Except Misuse (Tape R) :=
  t.sweepRange .start t.nodes.mark

def setMark (t : Tape R) : Tape R :=
  { t with nodes := t.nodes.setMark, edges := t.edges.setMark, adjoints := t.adjoints.setMark }

def rewindToMark (t : Tape R) : Tape R :=
  { t with
    nodes := t.nodes.rewindToMark
    edges := t.edges.rewindToMark
    adjoints := t.adjoints.rewindToMark }

def rewind (t : Tape R) : Tape R :=
  { t with nodes := t.nodes.rewind, edges := t.edges.rewind, adjoints := t.adjoints.rewind }

def clear (t : Tape R) : Tape R :=
  { t with nodes := t.nodes.clear, edges := t.edges.clear, adjoints := t.adjoints.clear }

end Tape

end PayoffPricing
