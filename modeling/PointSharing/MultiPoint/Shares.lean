/-
Sharing a function with several special points.

There is one tree for all points.  At the active node in position `j` of its depth the
sign vectors of the two parties differ in exactly the bit of point `j`; at every node that
is not active the two states are the same.  A party corrects a node by the sum of those
corrections of the level that its sign vector selects, so at an active node the two
parties' corrections differ by exactly the one that was made for that node.

A node with one active child gets the seed that makes the states of the other child equal.
A node with two active children needs no such seed and gets a random one.  The sign
vectors of active children are made to differ in the bit of the child's own position,
those of other children to be equal.
-/
import PointSharing.MultiPoint.ActivePrefixes
import PointSharing.MultiPoint.Key
import PointSharing.Prg
import PointSharing.Tape
import PointSharing.Tree

namespace PointSharing.MultiPoint

/-- The state of a party at the root, where all points are below one node. -/
def rootNode (party : Party) (seed : Block) : Node SignVector :=
  ⟨seed, if party.bit then SignVector.single 0 else 0⟩

/-! ### One level -/

/-- The level with given corrections: a node's children are corrected by the sum of those that
its sign vector selects. -/
def level (prg : Prg) (points : Nat) (corrections : List SignCorrection) :
    Tree.Level (Node SignVector) := fun node =>
  let correction := SignCorrection.selected corrections node.control
  (prg.expandSigns points node.seed ^^^ correction.toFork).map fun child =>
    { child with control := child.control &&& SignVector.mask points }

/-- The bit in which the sign vectors of a child are made to differ, if the child is active. -/
def ownSign (position : Option Nat) : SignVector :=
  match position with
  | some point => SignVector.single point
  | none => 0

/-- The correction for an active node, from what its two parties expand to.  A block is drawn if
both children are active. -/
def correctionFor (branch : Branch) (forks : Pair (Fork (Node SignVector))) :
    StateM Tape SignCorrection := do
  let difference := forks.a ^^^ forks.b
  let seed ←
    if branch.isSplit then Tape.draw
    else pure (difference.side branch.left.isSome).seed
  return {
    seed
    left := difference.left.control ^^^ ownSign branch.left
    right := difference.right.control ^^^ ownSign branch.right }

/-- The states of the active children, from those of both children. -/
def activeChildren (branch : Branch) (forks : Pair (Fork (Node SignVector))) :
    List (Pair (Node SignVector)) :=
  (if branch.left.isSome then [forks.map Fork.left] else [])
    ++ (if branch.right.isSome then [forks.map Fork.right] else [])

/-- One level of corrections and the states of the active nodes below it, from the branches and
states of the active nodes above it.  Points without an active node have a zero correction. -/
def growLevel (prg : Prg) (points : Nat) (branches : List Branch)
    (nodes : List (Pair (Node SignVector))) :
    StateM Tape (List SignCorrection × List (Pair (Node SignVector))) := do
  let corrections ← (branches.zip nodes).mapM fun (branch, node) =>
    correctionFor branch (node.map fun state => prg.expandSigns points state.seed)
  let padded := corrections ++ List.replicate (points - corrections.length) SignCorrection.zero
  let next := (branches.zip nodes).flatMap fun (branch, node) =>
    activeChildren branch (node.map (level prg points padded))
  return (padded, next)

/-! ### A whole function -/

/-- The levels down to some depth and the states of the active nodes there. -/
structure Growth where
  /-- The corrections of the levels, from the root down. -/
  levels : List (List SignCorrection)
  /-- The states of the active nodes, in the order of `activePrefixes`. -/
  nodes : List (Pair (Node SignVector))

/-- Grows the tree to a depth. -/
def grow (prg : Prg) (points : Nat) (indices : List UInt64) (rangeSize : Nat)
    (roots : Pair Block) : (depth : Nat) → StateM Tape Growth
  | 0 => return ⟨[], [Pair.ofFn fun party => rootNode party (roots.get party)]⟩
  | depth + 1 => do
    let growth ← grow prg points indices rangeSize roots depth
    let (corrections, nodes) ←
      growLevel prg points (branches indices rangeSize depth) growth.nodes
    return ⟨growth.levels ++ [corrections], nodes⟩

/-- All that generation computes, before it is written into keys. -/
structure Shares where
  /-- The seeds at the root. -/
  roots : Pair Block
  /-- The corrections of all levels, which both keys have. -/
  levels : List (List SignCorrection)
  /-- The states at the special leaves, in ascending order of their indices. -/
  leaves : List (Pair (Node SignVector))
  /-- The masked payload words, which both keys have. -/
  payload : List Bytes

namespace Shares

/-- A payload word masked by both parties' leaves. -/
def maskWord (prg : Prg) (word : Bytes) (leaf : Pair (Node SignVector)) : Bytes :=
  Bytes.xor (Bytes.xor word (prg.leafMask leaf.a.seed word.length))
    (prg.leafMask leaf.b.seed word.length)

/-- The special indices and payload of a function of the given sizes are acceptable. -/
def checkArguments (indices : List UInt64) (rangeSize points dataSize : Nat) (data : Bytes) :
    Except Error Unit := do
  checkRangeSize rangeSize
  checkPointCount points
  checkIndexCount indices points
  checkPayload data (← outputLength points dataSize)
  checkSpecialIndices indices rangeSize

/-- The shares of the function whose value at each of the special indices is the word of `data`
in the same position, and zero elsewhere.  Nothing is drawn before all arguments have been
checked. -/
def draw (prg : Prg) (indices : List UInt64) (rangeSize points dataSize : Nat) (data : Bytes) :
    Draws Shares := do
  checkArguments indices rangeSize points dataSize data
  let rootA ← Tape.draw
  let rootB ← Tape.draw
  let roots : Pair Block := ⟨rootA, rootB⟩
  let growth ← grow prg points indices rangeSize roots rangeSize
  return {
    roots
    levels := growth.levels
    leaves := growth.nodes
    payload := List.zipWith (maskWord prg) (Bytes.words dataSize points data) growth.nodes }

/-- What the key of a party holds. -/
def parts (shares : Shares) (points : Nat) (proofCorrections : List Tag) (party : Party) :
    Parts where
  rootSeed := shares.roots.get party
  party := party
  levels := shares.levels
  payload := shares.payload
  proofCorrections := proofCorrections
  points := points

/-- The two keys; with proof corrections they are keys for evaluation with proof. -/
def toKeys (shares : Shares) (rangeSize points dataSize : Nat)
    (proofCorrections : Option (List Tag)) : Except Error (Pair Key) := do
  let layout ← Layout.multiPoint rangeSize points dataSize proofCorrections.isSome
  return Pair.ofFn fun party =>
    let parts := shares.parts points (proofCorrections.getD []) party
    { bytes := layout.build (parts.content rangeSize), dataSize, rangeSize, points }

end Shares

/-- The key pair of the function whose value at each of the special indices is the word of
`data` in the same position, and zero elsewhere. -/
def generate (prg : Prg) (indices : List UInt64) (rangeSize points dataSize : Nat)
    (data : Bytes) : Draws (Pair Key) := do
  let shares ← Shares.draw prg indices rangeSize points dataSize data
  shares.toKeys rangeSize points dataSize none

end PointSharing.MultiPoint
