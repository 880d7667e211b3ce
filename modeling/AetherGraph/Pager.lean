import AetherGraph.Foundation.LazyQueue
import AetherGraph.Foundation.Recency
import Mathlib.Data.List.AList

/-! The pager of a demand-paged region: a fault loads one page, after evictions that keep the
resident pages within a budget. -/

namespace AetherGraph

open Foundation

/-- An error, with the errnos of the I/O errors in its chain. -/
structure PagerError where
  errnos : List Nat
  text : String
  deriving DecidableEq, Repr

section Retries

/-- `EINTR`, `EAGAIN`, `ENOMEM`, `EBUSY`. -/
def isTransient (errno : Nat) : Bool :=
  errno = 4 || errno = 11 || errno = 12 || errno = 16

/-- A hundred attempts while the error clears on retry, then one whose outcome counts as it is.
`op` gives the outcome of each attempt. -/
def retryTransient (op : Nat → Except Nat Unit) : Except Nat Unit :=
  let rec attempts : Nat → Nat → Except Nat Unit
    | 0, done => op done
    | more + 1, done =>
        match op done with
        | .error errno => if isTransient errno then attempts more (done + 1) else .error errno
        | .ok () => .ok ()
  attempts 100 0

/-- The source's page, with the retries of a transient error. -/
def fillRetrying {α : Type} (fill : Nat → Except PagerError α) : Except PagerError α :=
  let rec attempts : Nat → Nat → Except PagerError α
    | 0, done => fill done
    | more + 1, done =>
        match fill done with
        | .error e => if e.errnos.any isTransient then attempts more (done + 1) else .error e
        | .ok page => .ok page
  attempts 99 0

end Retries

/-- A page fault, and the outcomes of the calls that serve it: the attempts of the `i`-th eviction,
of the source at an offset, of the copy and of the zero page. -/
structure Fault (α : Type) where
  addr : Nat
  madvise : Nat → Nat → Except Nat Unit
  fill : Nat → Nat → Except PagerError α
  copy : Nat → Except Nat Unit
  zeropage : Nat → Except Nat Unit

/-- What the pager did: an eviction made for `keep`, a page recorded as resident and recent, a page
given its content or zeros, a failure recorded, the region released. -/
inductive PagerEffect (α : Type) where
  | evict (victim keep : Nat)
  | record (page : Nat)
  | copy (page : Nat) (content : α)
  | zero (page : Nat)
  | fail (reason : PagerError)
  | unregister

/-- Lowest weight first, then the page. -/
def queueLe (a b : Nat × Nat) : Prop := a.1 < b.1 ∨ a.1 = b.1 ∧ a.2 ≤ b.2

instance : DecidableRel queueLe := fun _ _ => inferInstanceAs (Decidable (_ ∨ _ ∧ _))

instance : Std.Total queueLe where
  total a b := by
    unfold queueLe
    omega

instance : IsTrans (Nat × Nat) queueLe where
  trans a b c := by
    unfold queueLe
    omega

/-- The pager thread's state.  The eviction queue may hold entries of pages no longer resident.
`log` records what happened. -/
structure Pager (α : Type) where
  base : Nat
  pageSize : Nat
  budgetPages : Nat
  weights : List Nat
  resident : AList (fun _ : Nat => Nat)
  evictQueue : List (Nat × Nat)
  recent : List Nat
  protect : Nat
  failed : Bool
  reason : Option PagerError
  faults : Nat
  evictions : Nat
  running : Bool
  log : List (PagerEffect α)

/-- Most recent installs shielded from eviction. -/
def recentInstalls : Nat := 64

namespace Pager

variable {α : Type}

def new (base pageSize budgetPages : Nat) (weights : List Nat) : Pager α :=
  { base := base
    pageSize := pageSize
    budgetPages := budgetPages
    weights := weights
    resident := ∅
    evictQueue := []
    recent := []
    protect := min (max (budgetPages / 2) 1) recentInstalls
    failed := false
    reason := none
    faults := 0
    evictions := 0
    running := true
    log := [] }

variable (s : Pager α)

/-- Pages beyond the table weigh nothing. -/
def weight (page : Nat) : Nat := s.weights.getD page 0

def pageOf (addr : Nat) : Nat := (addr - addr % s.pageSize - s.base) / s.pageSize

/-- The resident pages as queue entries. -/
def entries : List (Nat × Nat) := s.resident.entries.map fun e => (e.2, e.1)

def recordInstall (page : Nat) : Pager α :=
  let weight := s.weight page
  { s with
    resident := s.resident.insert page weight
    evictQueue := if (s.resident.lookup page).isNone
      then s.evictQueue.orderedInsert queueLe (weight, page) else s.evictQueue
    recent := (touch s.recent page).rtake s.protect
    log := s.log ++ [.record page] }

/-- Entries whose page is resident, with its weight. -/
def live (entry : Nat × Nat) : Prop := s.resident.lookup entry.2 = some entry.1

instance : DecidablePred s.live := fun _ => inferInstanceAs (Decidable (_ = _))

/-- The page about to be installed, or a recent install. -/
def held (keep : Nat) (entry : Nat × Nat) : Prop := entry.2 = keep ∨ entry.2 ∈ s.recent

instance (keep : Nat) : DecidablePred (s.held keep) :=
  fun _ => inferInstanceAs (Decidable (_ ∨ _))

/-- The victim off the queue, with the entries put aside for it put back. -/
def popVictim (keep : Nat) : Option Nat × Pager α :=
  let popped := popLive s.live (s.held keep) s.evictQueue
  (popped.1.map Prod.snd, { s with evictQueue := pushAll queueLe popped.2.2 popped.2.1 })

/-- The victim leaves the map, and the queue is rebuilt when stale entries outnumber live ones. -/
def removeVictim (victim keep : Nat) : Pager α :=
  let s' := { s with
    resident := s.resident.erase victim
    evictions := s.evictions + 1
    log := s.log ++ [.evict victim keep] }
  if 2 * max s'.resident.keys.length 1 < s'.evictQueue.length then
    { s' with evictQueue := s'.entries.insertionSort queueLe }
  else s'

/-- Evict the lowest-weight page that is neither `keep` nor recent; `false` when there is none. -/
def evictOne (keep : Nat) (madvise : Nat → Except Nat Unit) : Except PagerError Bool × Pager α :=
  let (victim, s) := s.popVictim keep
  match victim with
  | none => (.ok false, s)
  | some victim =>
      match retryTransient madvise with
      | .error errno => (.error ⟨[errno], "MADV_DONTNEED failed"⟩, s)
      | .ok () => (.ok true, s.removeVictim victim keep)

/-- Evictions until there is room for one more, or none is left to evict; the `i`-th of them has
the outcomes `madvise i`. -/
def evictDown (keep : Nat) (madvise : Nat → Nat → Except Nat Unit) :
    Nat → Nat → Pager α → Except PagerError Unit × Pager α
  | 0, _, s => (.ok (), s)
  | fuel + 1, i, s =>
      if s.budgetPages ≤ s.resident.keys.length then
        match s.evictOne keep (madvise i) with
        | (.error e, s) => (.error e, s)
        | (.ok false, s) => (.ok (), s)
        | (.ok true, s) => evictDown keep madvise fuel (i + 1) s
      else (.ok (), s)

def eexist : Nat := 17

/-- A page that is already there resolves the fault as well. -/
def resolved (result : Except Nat Unit) (text : String) : Except PagerError Unit :=
  match result with
  | .error errno => if errno = eexist then .ok () else .error ⟨[], text⟩
  | .ok () => .ok ()

/-- Installs a page's content; the kernel takes it when the copy succeeds. -/
def copyPage (page : Nat) (content : α) (copy : Nat → Except Nat Unit) :
    Except PagerError Unit × Pager α :=
  let s := { s.recordInstall page with faults := s.faults + 1 }
  let result := retryTransient copy
  (resolved result "UFFDIO_COPY failed",
    if result = .ok () then { s with log := s.log ++ [.copy page content] } else s)

def serviceFault (fault : Fault α) : Except PagerError Unit × Pager α :=
  let page := s.pageOf fault.addr
  match evictDown page fault.madvise s.resident.keys.length 0 s with
  | (.error e, s) => (.error e, s)
  | (.ok (), s) =>
      match fillRetrying (fault.fill (page * s.pageSize)) with
      | .error e => (.error e, s)
      | .ok content => s.copyPage page content fault.copy

def installZeroPage (page : Nat) (zeropage : Nat → Except Nat Unit) :
    Except PagerError Unit × Pager α :=
  let s := s.recordInstall page
  let result := retryTransient zeropage
  (resolved result "UFFDIO_ZEROPAGE failed",
    if result = .ok () then { s with log := s.log ++ [.zero page] } else s)

/-- The failure sticks with its first reason. -/
def fail (e : PagerError) : Pager α :=
  { s with failed := true, reason := s.reason.or (some e), log := s.log ++ [.fail e] }

def unregisterAll : Pager α := { s with running := false, log := s.log ++ [.unregister] }

/-- One turn of the pager's loop on a fault. -/
def serve (fault : Fault α) : Pager α :=
  if s.running then
    match s.serviceFault fault with
    | (.ok (), s) => s
    | (.error e, s) =>
        match (s.fail e).installZeroPage (s.pageOf fault.addr) fault.zeropage with
        | (.ok (), s) => s
        | (.error _, s) => s.unregisterAll
  else s

/-- The loop on the faults as they arrive. -/
def run (faults : List (Fault α)) : Pager α := faults.foldl serve s

end Pager

end AetherGraph
