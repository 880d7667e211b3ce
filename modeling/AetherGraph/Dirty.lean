import AetherGraph.Foundation.SortedList
import Mathlib.Data.Nat.Bitwise

/-! Dirty-vertex bitmap: one bit a vertex, in 64-bit words that are OR-ed and swapped
out one at a time. -/

namespace AetherGraph

structure DirtyBitmap where
  words : List Nat
  numVertices : Nat
  deriving DecidableEq, Repr

namespace DirtyBitmap

def new (numVertices : Nat) : DirtyBitmap :=
  ⟨List.replicate (max ((numVertices + 63) / 64) 1) 0, numVertices⟩

/-- The bits of one word for the vertices of a run. -/
def maskOf (run : List Nat) : Nat := run.foldl (fun mask v => mask ||| 1 <<< (v % 64)) 0

/-- `fetch_or` on one word. -/
def orWord (d : DirtyBitmap) (word mask : Nat) : DirtyBitmap :=
  { d with words := d.words.modify word (· ||| mask) }

/-- One `fetch_or` per word of an ascending list; the first vertex out of range ends it. -/
def markSorted (d : DirtyBitmap) : List Nat → DirtyBitmap
  | [] => d
  | v :: rest =>
      if d.numVertices ≤ v then d
      else
        let inWord := fun u => decide (u < d.numVertices) && u / 64 == v / 64
        markSorted (d.orWord (v / 64) (maskOf (v :: rest.takeWhile inWord)))
          (rest.dropWhile inWord)
  termination_by sorted => sorted.length
  decreasing_by exact Nat.lt_succ_of_le (List.dropWhile_sublist _).length_le

def isDirty (d : DirtyBitmap) (v : Nat) : Bool :=
  decide (v < d.numVertices) && (d.words.getD (v / 64) 0).testBit (v % 64)

/-- `swap(0)` on one word. -/
def swapWord (d : DirtyBitmap) (word : Nat) : Nat × DirtyBitmap :=
  (d.words.getD word 0, { d with words := d.words.set word 0 })

/-- Vertices of the set bits of one swapped-out word, ascending. -/
def wordVertices (numVertices word bits : Nat) : List Nat :=
  ((List.range 64).filter fun bit => bits.testBit bit && decide (word * 64 + bit < numVertices)).map
    fun bit => word * 64 + bit

/-- Swap the words out in order, collecting their vertices. -/
def drainFrom (d : DirtyBitmap) : List Nat → List Nat × DirtyBitmap
  | [] => ([], d)
  | word :: rest =>
      let (bits, d) := d.swapWord word
      let (later, d) := drainFrom d rest
      (wordVertices d.numVertices word bits ++ later, d)

def drainDirty (d : DirtyBitmap) : List Nat × DirtyBitmap :=
  d.drainFrom (List.range d.words.length)

def clearAll (d : DirtyBitmap) : DirtyBitmap :=
  (List.range d.words.length).foldl (fun d word => (d.swapWord word).2) d

end DirtyBitmap

end AetherGraph
