import AetherGraph.Arena
import Mathlib.Data.Nat.Log

/-! C-trees: persistent search trees of chunks, named by tagged slot offsets.
A panic of a fixed traversal stack is `none` on the
read side and `error` on the write side; a loop over arena nodes carries fuel
for every slot ever bumped, which a tree cannot exceed.  `u32` counts wrap. -/

namespace AetherGraph

/-- Sentinel for the empty tree. -/
def null : Nat := 2 ^ 32 - 1
def interiorBit : Nat := 2 ^ 31
def maxDepth : Nat := 64

def isLeaf (offset : Nat) : Bool := offset &&& interiorBit == 0
def tagInterior (offset : Nat) : Nat := offset ||| interiorBit
def stripTag (offset : Nat) : Nat := offset &&& (2 ^ 31 - 1)

inductive NodeRef where
  | leaf (chunk : Chunk)
  | interior (node : Interior)

namespace Arena

def nodeAt (a : Arena) (tagged : Nat) : NodeRef :=
  if isLeaf tagged then .leaf (a.chunks tagged) else .interior (a.interiors (stripTag tagged))

def interiorAt (a : Arena) (tagged : Nat) : Interior := a.interiors (stripTag tagged)

def subtreeSize (a : Arena) (offset : Nat) : Nat :=
  match a.nodeAt offset with
  | .leaf chunk => chunk.count
  | .interior node => node.count

/-- Steps a walk may take: one per slot ever bumped. -/
def walkFuel (a : Arena) : Nat := a.bumped .chunk + a.bumped .interior

/-- The chunks in order.  The stack holds pending right subtrees, `maxDepth` at most. -/
def visitLoop (a : Arena) : Nat → Nat → List Nat → List Chunk → Option (List Chunk)
  | 0, _, _, _ => none
  | fuel + 1, cur, stack, seen =>
      match a.nodeAt cur with
      | .interior node =>
          if stack.length < maxDepth then visitLoop a fuel node.left (node.right :: stack) seen
          else none
      | .leaf chunk =>
          match stack with
          | [] => some (seen ++ [chunk])
          | next :: stack => visitLoop a fuel next stack (seen ++ [chunk])

def visitChunks (a : Arena) (root : Nat) : Option (List Chunk) := a.visitLoop a.walkFuel root [] []

def retireLoop (a : Arena) : Nat → Nat → List Nat → RetireLog → Option RetireLog
  | 0, _, _, _ => none
  | fuel + 1, cur, stack, retire =>
      match a.nodeAt cur with
      | .interior node =>
          if stack.length < maxDepth then
            retireLoop a fuel node.left (node.right :: stack) (retire.push .interior (stripTag cur))
          else none
      | .leaf _ =>
          match stack with
          | [] => some (retire.push .chunk cur)
          | next :: stack => retireLoop a fuel next stack (retire.push .chunk cur)

/-- Log every node of the subtree under `root`. -/
def retireSubtree (a : Arena) (root : Nat) (retire : RetireLog) : Option RetireLog :=
  a.retireLoop a.walkFuel root [] retire

def containsLoop (a : Arena) (val : Nat) : Nat → Nat → Option Bool
  | 0, _ => none
  | fuel + 1, cur =>
      match a.nodeAt cur with
      | .interior node =>
          containsLoop a val fuel (if val < node.splitKey then node.left else node.right)
      | .leaf chunk => some (chunk.contains val)

/-- Path of interior offsets with the turns taken, and the leaf they end at; `none`
when the path is longer than `fuel`. -/
def descend (a : Arena) (val : Nat) : Nat → Nat → Option (List (Nat × Bool) × Nat)
  | fuel, cur =>
      match a.nodeAt cur with
      | .leaf _ => some ([], cur)
      | .interior node =>
          match fuel with
          | 0 => none
          | fuel + 1 =>
              let left := decide (val < node.splitKey)
              (descend a val fuel (if left then node.left else node.right)).map
                fun (path, leaf) => ((cur, left) :: path, leaf)

/-- `3 * child > 2 * parent` for either child. -/
def alphaUnbalanced (a : Arena) (node : Interior) : Bool :=
  decide (2 * node.count < 3 * a.subtreeSize node.left) ||
    decide (2 * node.count < 3 * a.subtreeSize node.right)

end Arena

/-- `floor(log_{3/2} n)`, exactly: the largest `k` with `(3 / 2) ^ k ≤ n`. -/
def depthLimit (n : Nat) : Nat :=
  Nat.findGreatest (fun k => 3 ^ k ≤ max n 2 * 2 ^ k) (2 * (Nat.log2 (max n 2) + 1))

/-- Where a balanced build places its nodes. -/
class SlotSink (σ : Type) where
  putChunk : σ → Chunk → Option Nat × σ
  putInterior : σ → Interior → Option Nat × σ

instance : SlotSink ArenaWriter where
  putChunk := ArenaWriter.allocWriteChunk
  putInterior := ArenaWriter.allocWriteInterior

/-- Leaves of a balanced tree over `n` elements. -/
def leavesFor (n : Nat) : Nat := (n + (chunkCap - 1)) / chunkCap

/-- Elements left of the root's split key. -/
def balancedMid (n : Nat) : Nat := leavesFor n / 2 * chunkCap

theorem balancedMid_lt {n : Nat} (h : chunkCap < n) : 0 < balancedMid n ∧ balancedMid n < n := by
  simp only [balancedMid, leavesFor, chunkCap] at *
  omega

/-- Split on a chunk boundary at the leaf-count midpoint until one chunk is left. -/
def buildBalanced {σ : Type} [SlotSink σ] (sink : σ) (vals : List Nat) : Option Nat × σ :=
  if small : vals.length ≤ chunkCap then SlotSink.putChunk sink (Chunk.fromSorted vals)
  else
    have := balancedMid_lt (Nat.lt_of_not_le small)
    match buildBalanced sink (vals.take (balancedMid vals.length)) with
    | (none, sink) => (none, sink)
    | (some left, sink) =>
        match buildBalanced sink (vals.drop (balancedMid vals.length)) with
        | (none, sink) => (none, sink)
        | (some right, sink) =>
            match SlotSink.putInterior sink ⟨left, right, vals.length % 2 ^ 32,
                (vals.drop (balancedMid vals.length)).headD 0⟩ with
            | (none, sink) => (none, sink)
            | (some idx, sink) => (some (tagInterior idx), sink)
  termination_by vals.length
  decreasing_by
    · simp only [List.length_take]
      omega
    · simp only [List.length_drop]
      omega

/-- A root is an offset into an arena; `null` is the empty tree. -/
structure CTree where
  root : Nat
  deriving DecidableEq, Repr

inductive InsertResult where
  | inserted (tree : CTree)
  | duplicate
  | arenaFull
  deriving DecidableEq, Repr

/-- Outcome of the leaf insert: the new child and the levels a split added. -/
inductive LeafInsert where
  | placed (child splitLevels : Nat) (w : ArenaWriter)
  | duplicate
  | arenaFull (w : ArenaWriter)

/-- The two halves of a split chunk with `val` inserted into its own half. -/
def splitInsert (chunk : Chunk) (val : Nat) : Option (Chunk × Chunk) :=
  let (left, right) := chunk.split
  if val < right.min then (left.insert val).map fun left => (left, right)
  else (right.insert val).map fun right => (left, right)

/-- Both halves and their new parent, in allocation order. -/
def allocSplit (w : ArenaWriter) (newLeft newRight : Chunk) (splitKey : Nat) : LeafInsert :=
  match w.allocWriteChunk newLeft with
  | (none, w) => .arenaFull w
  | (some left, w) =>
      match w.allocWriteChunk newRight with
      | (none, w) => .arenaFull w
      | (some right, w) =>
          match w.allocWriteInterior ⟨left, right, newLeft.count + newRight.count, splitKey⟩ with
          | (none, w) => .arenaFull w
          | (some idx, w) => .placed (tagInterior idx) 1 w

def leafInsert (w : ArenaWriter) (chunk : Chunk) (val : Nat) : LeafInsert :=
  if chunk.isFull then
    match splitInsert chunk val with
    | none => .duplicate
    | some (newLeft, newRight) => allocSplit w newLeft newRight chunk.split.2.min
  else
    match chunk.insert val with
    | none => .duplicate
    | some chunk =>
        match w.allocWriteChunk chunk with
        | (none, w) => .arenaFull w
        | (some idx, w) => .placed idx 0 w

/-- Copy the ancestors of `child` bottom-up, adding `bump` to their counts; the copies'
offsets come back root first. -/
def copyPath (bump : Nat) : ArenaWriter → List (Nat × Bool) → Nat →
    Option (Nat × List Nat) × ArenaWriter
  | w, [], child => (some (child, []), w)
  | w, (offset, left) :: path, child =>
      match copyPath bump w path child with
      | (none, w) => (none, w)
      | (some (child, newPath), w) =>
          let old := w.arena.interiorAt offset
          match w.allocWriteInterior ⟨if left then child else old.left,
              if left then old.right else child, (old.count + bump) % 2 ^ 32, old.splitKey⟩ with
          | (none, w) => (none, w)
          | (some idx, w) => (some (tagInterior idx, tagInterior idx :: newPath), w)

/-- First entry of the new path that is alpha-unbalanced, else the root. -/
def findScapegoat (a : Arena) (newPath : List Nat) : Nat :=
  (newPath.findIdx? fun offset => a.alphaUnbalanced (a.interiorAt offset)).getD 0

/-- Rebuild the highest unbalanced subtree of the copied path and copy its ancestors
again.  `error` is a traversal-stack panic with what it leaves; `none` a full arena. -/
def rebalance (w : ArenaWriter) (newRoot : Nat) (newPath : List Nat) (wentLeft : List Bool)
    (retire : RetireLog) :
    Except (ArenaWriter × RetireLog) (Option Nat × ArenaWriter × RetireLog) :=
  let scapegoat := findScapegoat w.arena newPath
  let target := newPath.getD scapegoat newRoot
  match w.arena.visitChunks target with
  | none => .error (w, retire)
  | some chunks =>
      match buildBalanced w (chunks.flatMap Chunk.asSlice) with
      | (none, w) => .ok (none, w, retire)
      | (some child, w) =>
          match copyPath 0 w ((newPath.zip wentLeft).take scapegoat) child with
          | (none, w) => .ok (none, w, retire)
          | (some (child, _), w) =>
              match w.arena.retireSubtree target retire with
              | none => .error (w, retire)
              | some retire => .ok (some child, w, ((newPath.take scapegoat).map stripTag).foldl
                  (fun log idx => log.push .interior idx) retire)

namespace CTree

def empty : CTree := ⟨null⟩

def count (tree : CTree) (a : Arena) : Nat :=
  if tree.root = null then 0 else a.subtreeSize tree.root

/-- `for_each_chunk`: the chunks it calls back with, in order. -/
def chunks (tree : CTree) (a : Arena) : Option (List Chunk) :=
  if tree.root = null then some [] else a.visitChunks tree.root

/-- `collect_into` an empty buffer. -/
def collect (tree : CTree) (a : Arena) : Option (List Nat) :=
  (tree.chunks a).map fun chunks => chunks.flatMap Chunk.asSlice

def contains (tree : CTree) (a : Arena) (val : Nat) : Option Bool :=
  if tree.root = null then some false else a.containsLoop val (a.walkFuel + 1) tree.root

def fromSorted (w : ArenaWriter) (vals : List Nat) : Option CTree × ArenaWriter :=
  if vals.isEmpty then (some empty, w)
  else
    match buildBalanced w vals with
    | (none, w) => (none, w)
    | (some root, w) => (some ⟨root⟩, w)

/-- A failed rebalance still returns the path-copied tree. -/
def insertRebalanced (w : ArenaWriter) (newRoot : Nat) (newPath : List Nat)
    (wentLeft : List Bool) (retire : RetireLog) :
    Except (ArenaWriter × RetireLog) (InsertResult × ArenaWriter × RetireLog) :=
  match rebalance w newRoot newPath wentLeft retire with
  | .error left => .error left
  | .ok (some root, w, retire) => .ok (.inserted ⟨root⟩, w, retire)
  | .ok (none, w, retire) => .ok (.inserted ⟨newRoot⟩, w, retire)

/-- Insert by path copy, then rebalance if the path grew past the height bound.
Superseded nodes are logged only when a tree is returned. -/
def insertWithScratch (tree : CTree) (w : ArenaWriter) (val : Nat) (retire : RetireLog) :
    Except (ArenaWriter × RetireLog) (InsertResult × ArenaWriter × RetireLog) :=
  if tree.root = null then
    match w.allocWriteChunk (Chunk.fromSorted [val]) with
    | (some off, w) => .ok (.inserted ⟨off⟩, w, retire)
    | (none, w) => .ok (.arenaFull, w, retire)
  else
    match w.arena.descend val maxDepth tree.root with
    | none => .ok (.arenaFull, w, retire)
    | some (path, cur) =>
        let total := w.arena.subtreeSize tree.root + 1
        match leafInsert w (w.arena.chunks cur) val with
        | .duplicate => .ok (.duplicate, w, retire)
        | .arenaFull w => .ok (.arenaFull, w, retire)
        | .placed child splitLevels w =>
            let d := path.length + splitLevels
            let needRebalance := decide (Nat.log2 (max total 2) < d) && decide (depthLimit total < d)
            match copyPath 1 w path child with
            | (none, w) => .ok (.arenaFull, w, retire)
            | (some (newRoot, newPath), w) =>
                let retire := (path.map fun step => stripTag step.1).foldl
                  (fun log idx => log.push .interior idx) (retire.push .chunk cur)
                if needRebalance then
                  insertRebalanced w newRoot newPath (path.map Prod.snd) retire
                else .ok (.inserted ⟨newRoot⟩, w, retire)

end CTree

end AetherGraph
