import Mathlib.Algebra.GroupWithZero.Nat
import Mathlib.Data.List.Basic

/-! Write-ahead log: a sixteen-byte header, then twelve-byte records.  Bytes are
naturals below 256.  The file carries the answers the kernel will give to its next
`write(2)` and `fdatasync(2)` calls; once a list is spent, calls succeed in full.
The checksum crate is the field `crc`. -/

namespace AetherGraph

def magic : List Nat := [0x41, 0x47, 0x57, 0x41, 0x4C, 0, 0, 0]
def version : Nat := 1
def headerLen : Nat := 16
def recordLen : Nat := 12
def bufCapacity : Nat := 2 ^ 20

inductive WalError where
  | badMagic (found : List Nat)
  | unknownVersion (version : Nat)
  | recordOutOfRange (src dst numVertices : Nat)
  | replayArenaFull
  deriving DecidableEq, Repr

/-- One edge insertion event. -/
structure EdgeRecord where
  src : Nat
  dst : Nat
  deriving DecidableEq, Repr

def leBytes (n : Nat) : List Nat := [n % 256, n / 256 % 256, n / 65536 % 256, n / 16777216 % 256]

def ofLeBytes (bytes : List Nat) : Nat := bytes.foldr (fun b acc => b + 256 * acc) 0

def header : List Nat := magic ++ leBytes version ++ [0, 0, 0, 0]

def encodeRecord (crc : List Nat → UInt32) (r : EdgeRecord) : List Nat :=
  let payload := leBytes r.src ++ leBytes r.dst
  payload ++ leBytes (crc payload).toNat

def encodeRecords (crc : List Nat → UInt32) (recs : List EdgeRecord) : List Nat :=
  recs.flatMap (encodeRecord crc)

/-- One answer to `write(2)`. -/
inductive WriteResult where
  | wrote (n : Nat)
  | interrupted
  | failed
  deriving DecidableEq, Repr

/-- The file, its length at the last completed barrier, and the answers to come. -/
structure LogFile where
  bytes : List Nat
  synced : Nat
  writes : List WriteResult
  syncs : List Bool
  deriving DecidableEq, Repr

namespace LogFile

/-- `fdatasync(2)`. -/
def syncData (f : LogFile) : Bool × LogFile :=
  match f.syncs with
  | [] => (true, { f with synced := f.bytes.length })
  | ok :: syncs =>
      (ok, { f with synced := if ok then f.bytes.length else f.synced, syncs := syncs })

end LogFile

structure WalWriter where
  file : LogFile
  buf : List Nat
  pending : Nat
  crc : List Nat → UInt32

namespace WalWriter

/-- The loop of `flush_buf` from `written` staged bytes on: whether it emptied the
buffer, the file bytes, how far it got, and the answers left. -/
def flushLoop (buf : List Nat) :
    List WriteResult → List Nat → Nat → Bool × List Nat × Nat × List WriteResult
  | [], bytes, written => (true, bytes ++ buf.drop written, buf.length, [])
  | result :: rest, bytes, written =>
      if buf.length ≤ written then (true, bytes, written, result :: rest)
      else
        match result with
        | .wrote n =>
            let n := min n (buf.length - written)
            if n = 0 then (false, bytes, written, rest)
            else flushLoop buf rest (bytes ++ (buf.drop written).take n) (written + n)
        | .interrupted => flushLoop buf rest bytes written
        | .failed => (false, bytes, written, rest)

/-- Hand the staged bytes to the kernel; what it took is dropped from the buffer. -/
def flushBuf (w : WalWriter) : Bool × WalWriter :=
  let (ok, bytes, written, writes) := flushLoop w.buf w.file.writes w.file.bytes 0
  (ok, { w with file := { w.file with bytes := bytes, writes := writes }
                buf := if ok then [] else w.buf.drop written })

/-- All or nothing: only the spill of earlier records can fail. -/
def appendEdges (w : WalWriter) (src : Nat) (dsts : List Nat) : Bool × WalWriter :=
  let need := dsts.length * recordLen
  let stage (w : WalWriter) : Bool × WalWriter :=
    (true, { w with buf := w.buf ++ encodeRecords w.crc (dsts.map fun dst => ⟨src, dst⟩)
                    pending := w.pending + need })
  if !w.buf.isEmpty && decide (bufCapacity < w.buf.length + need) then
    match w.flushBuf with
    | (true, w) => stage w
    | (false, w) => (false, w)
  else stage w

def appendEdge (w : WalWriter) (rec : EdgeRecord) : Bool × WalWriter :=
  w.appendEdges rec.src [rec.dst]

/-- Write the staged bytes, then the barrier; nothing to do when nothing is pending. -/
def sync (w : WalWriter) : Bool × WalWriter :=
  if w.pending = 0 then (true, w)
  else
    match w.flushBuf with
    | (false, w) => (false, w)
    | (true, w) =>
        match w.file.syncData with
        | (false, file) => (false, { w with file := file })
        | (true, file) => (true, { w with file := file, pending := 0 })

/-- Drop what is staged, written or not. -/
def discardPending (w : WalWriter) : WalWriter := { w with buf := [], pending := 0 }

end WalWriter

structure ReplayOutcome where
  applied : Nat
  truncateTo : Option Nat
  deriving DecidableEq, Repr

/-- Walk the records from `offset` on, `rest` being the bytes past it; a short tail or a
checksum mismatch ends the walk and asks for truncation. -/
def replayRecords {σ ε : Type} (crc : List Nat → UInt32) (apply : σ → EdgeRecord → Except ε σ)
    (totalLen : Nat) (state : σ) (applied offset : Nat) (rest : List Nat) :
    Except ε (σ × ReplayOutcome) :=
  if rest.length < recordLen then
    .ok (state, ⟨applied, if offset = totalLen then none else some offset⟩)
  else if ofLeBytes ((rest.drop 8).take 4) ≠ (crc (rest.take 8)).toNat then
    .ok (state, ⟨applied, some offset⟩)
  else
    match apply state ⟨ofLeBytes (rest.take 4), ofLeBytes ((rest.drop 4).take 4)⟩ with
    | .error e => .error e
    | .ok state =>
        replayRecords crc apply totalLen state (applied + 1) (offset + recordLen)
          (rest.drop recordLen)
  termination_by rest.length
  decreasing_by
    simp only [List.length_drop, recordLen] at *
    omega

/-- A missing or torn header is written afresh and synced; a whole one is checked. -/
def createOrOpen (file : LogFile) : Except WalError LogFile :=
  if file.bytes.length < headerLen then
    .ok { file with bytes := header, synced := headerLen }
  else if file.bytes.take 8 ≠ magic then .error (.badMagic (file.bytes.take 8))
  else if ofLeBytes ((file.bytes.drop 8).take 4) ≠ version then
    .error (.unknownVersion (ofLeBytes ((file.bytes.drop 8).take 4)))
  else .ok file

/-- Replay every clean record and cut a torn tail off, synced, before any append.  The
calls of an open succeed; `error` carries what the header or `apply` rejects. -/
def openReplaying {σ ε : Type} (crc : List Nat → UInt32) (ofWal : WalError → ε)
    (apply : σ → EdgeRecord → Except ε σ) (file : LogFile) (state : σ) :
    Except ε (σ × WalWriter × ReplayOutcome) :=
  match createOrOpen file with
  | .error e => .error (ofWal e)
  | .ok file =>
      match replayRecords crc apply file.bytes.length state 0 headerLen
          (file.bytes.drop headerLen) with
      | .error e => .error e
      | .ok (state, outcome) =>
          match outcome.truncateTo with
          | none => .ok (state, ⟨file, [], 0, crc⟩, outcome)
          | some off =>
              .ok (state, ⟨{ file with bytes := file.bytes.take off, synced := off }, [], 0, crc⟩,
                outcome)

end AetherGraph
