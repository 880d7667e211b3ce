import AetherGraph.SieveCache
import Mathlib.Logic.Function.Basic

/-! The tiered feature cache: GPU and CPU tiers behind one lock each, the spill file with
its set of present records, and the compressed backing tier.  Calls interleave one lock
section or file access at a time.  Rows are immutable: `truth` is the row of each node, the
one every insert passes and the backing tier was built from.  File accesses succeed. -/

namespace AetherGraph

inductive CacheResult (Row : Type) where
  | hit (node : Nat) (row : Row)
  | miss (node : Nat)
  | inserted (node : Nat)
  | rows (nodes : List Nat) (rows : List (Option Row))
  deriving DecidableEq, Repr

/-- What a call goes on with after its section on the CPU tier. -/
inductive After (Row : Type) where
  | get (node : Nat) (row : Row)
  | insert (node : Nat)
  | batchNvme (nodes : List Nat) (resolved : List (Nat × Row)) (missing : List Nat)
      (spills : List (Nat × Row))
  | batchCold (nodes : List Nat) (resolved : List (Nat × Row)) (cold : List Nat)
      (spills : List (Nat × Row))
  | batchEnd (nodes : List Nat) (resolved : List (Nat × Row)) (spills : List (Nat × Row))
  deriving DecidableEq, Repr

/-- The next section of a call. -/
inductive CallPc (Row : Type) where
  | saveRecord (node : Nat)
  | markRecord (node : Nat)
  | getGpu (node : Nat)
  | getCpu (node : Nat)
  | getNvme (node : Nat)
  | getRead (node : Nat)
  | batchGpu (nodes : List Nat)
  | batchCpu (nodes : List Nat) (resolved : List (Nat × Row)) (missing : List Nat)
  | batchNvme (nodes : List Nat) (resolved : List (Nat × Row)) (missing : List Nat)
      (spills : List (Nat × Row))
  | batchRead (nodes : List Nat) (resolved : List (Nat × Row)) (hits absent : List Nat)
      (spills : List (Nat × Row))
  | promoteGpu (rows : List (Nat × Row)) (after : After Row)
  | promoteCpu (rows demoted : List (Nat × Row)) (after : After Row)
  | admitting (rows : List (Nat × Row)) (after : After Row)
  | spillWrite (spills : List (Nat × Row)) (result : CacheResult Row)
  | spillMark (node : Nat) (spills : List (Nat × Row)) (result : CacheResult Row)
  | done (result : CacheResult Row)
  deriving DecidableEq, Repr

/-- A call, and the nodes whose insert had completed when it began. -/
structure CacheCall (Row : Type) where
  known : List Nat
  pc : CallPc Row
  deriving DecidableEq, Repr

/-- `cold` is the number of rows of the backing tier, if there is one. -/
structure FeatureCache (Row : Type) where
  gpu : SieveCache Row
  cpu : SieveCache Row
  file : Nat → Option Row
  present : List Nat
  cold : Option Nat
  calls : List (CacheCall Row)
  completed : List Nat

inductive CacheEvent where
  | get (node : Nat)
  | getBatch (nodes : List Nat)
  | insert (node : Nat)
  | next (i : Nat)
  deriving DecidableEq, Repr

namespace FeatureCache

variable {Row : Type} (truth : Nat → Row)

def new (gpuCapacity cpuCapacity : Nat) (warmup pinned : List Nat) (cold : Option Nat) :
    FeatureCache Row :=
  ⟨.new gpuCapacity warmup pinned, .new cpuCapacity warmup [], fun _ => none, [], cold, [], []⟩

def inCold (s : FeatureCache Row) (node : Nat) : Bool := s.cold.any fun n => decide (node < n)

/-- Whether `node` can be recovered once it leaves the memory tiers. -/
def isBacked (s : FeatureCache Row) (node : Nat) : Bool := s.inCold node || s.present.contains node

/-- `admit_one_cpu` on the tier and the spills so far. -/
def admitOne (s : FeatureCache Row) (acc : SieveCache Row × List (Nat × Row)) (row : Nat × Row) :
    SieveCache Row × List (Nat × Row) :=
  match acc.1.insert row.1 row.2 with
  | (.stored, cpu) => (cpu, acc.2)
  | (.storedEvicting v r, cpu) => (cpu, if s.isBacked v then acc.2 else acc.2 ++ [(v, r)])
  | (.refused, cpu) => (cpu, if s.isBacked row.1 then acc.2 else acc.2 ++ [row])

def admitAll (s : FeatureCache Row) (cpu : SieveCache Row) (rows : List (Nat × Row)) :
    SieveCache Row × List (Nat × Row) := rows.foldl s.admitOne (cpu, [])

/-- One row of the first section of `promote_from_cpu`. -/
def placeOne (acc : SieveCache Row × List (Nat × Row)) (row : Nat × Row) :
    SieveCache Row × List (Nat × Row) :=
  match acc.1.insert row.1 row.2 with
  | (.stored, gpu) => (gpu, acc.2)
  | (.storedEvicting v r, gpu) => (gpu, acc.2 ++ [(v, r)])
  | (.refused, gpu) => (gpu, acc.2 ++ [row])

/-- One node of the GPU section of `get_batch`: tier, resolved rows, missing nodes. -/
def probeGpu (acc : SieveCache Row × List (Nat × Row) × List Nat) (node : Nat) :
    SieveCache Row × List (Nat × Row) × List Nat :=
  if (acc.2.1.lookup node).isSome then acc
  else match acc.1.get node with
    | some (row, gpu) => (gpu, acc.2.1 ++ [(node, row)], acc.2.2)
    | none => (acc.1, acc.2.1, if node ∈ acc.2.2 then acc.2.2 else acc.2.2 ++ [node])

/-- One node of the CPU section: tier, found rows, nodes still missing. -/
def probeCpu (acc : SieveCache Row × List (Nat × Row) × List Nat) (node : Nat) :
    SieveCache Row × List (Nat × Row) × List Nat :=
  match acc.1.get node with
  | some (row, cpu) => (cpu, acc.2.1 ++ [(node, row)], acc.2.2)
  | none => (acc.1, acc.2.1, acc.2.2 ++ [node])

def assemble (nodes : List Nat) (resolved : List (Nat × Row)) : CacheResult Row :=
  .rows nodes (nodes.map fun n => resolved.lookup n)

/-- `spill` does nothing when there is nothing to write. -/
def spilling (spills : List (Nat × Row)) (result : CacheResult Row) : CallPc Row :=
  match spills with
  | [] => .done result
  | spills => .spillWrite spills result

/-- Where a call goes after its section on the CPU tier gave `spills`. -/
def resume (s : FeatureCache Row) (spills : List (Nat × Row)) : After Row → CallPc Row
  | .get node row => spilling spills (.hit node row)
  | .insert node => spilling spills (.inserted node)
  | .batchNvme nodes resolved missing before =>
      if missing = [] then spilling (before ++ spills) (assemble nodes resolved)
      else .batchNvme nodes resolved missing (before ++ spills)
  | .batchCold nodes resolved cold before =>
      if cold = [] then spilling (before ++ spills) (assemble nodes resolved)
      else match cold.find? fun n => !s.inCold n with
        | some node => .done (.miss node)
        | none =>
            let rows := cold.map fun n => (n, truth n)
            .admitting rows (.batchEnd nodes (resolved ++ rows) (before ++ spills))
  | .batchEnd nodes resolved before => spilling (before ++ spills) (assemble nodes resolved)

/-- The next section of a call; `none` if the call is over. -/
def callStep (s : FeatureCache Row) : CallPc Row → Option (FeatureCache Row × CallPc Row)
  | .saveRecord node =>
      some ({ s with file := Function.update s.file node (some (truth node)) }, .markRecord node)
  | .markRecord node =>
      some ({ s with present := node :: s.present }, .promoteGpu [(node, truth node)] (.insert node))
  | .getGpu node => match s.gpu.get node with
      | some (row, gpu) => some ({ s with gpu := gpu }, .done (.hit node row))
      | none => some (s, .getCpu node)
  | .getCpu node => match s.cpu.get node with
      | some (row, cpu) => some ({ s with cpu := cpu }, .promoteGpu [(node, row)] (.get node row))
      | none => some (s, .getNvme node)
  | .getNvme node =>
      if s.present.contains node then some (s, .getRead node)
      else if s.inCold node then some (s, .admitting [(node, truth node)] (.get node (truth node)))
      else some (s, .done (.miss node))
  | .getRead node => (s.file node).map fun row => (s, .admitting [(node, row)] (.get node row))
  | .batchGpu nodes =>
      let (gpu, resolved, missing) := nodes.foldl probeGpu (s.gpu, [], [])
      some ({ s with gpu := gpu },
        if missing = [] then .done (assemble nodes resolved) else .batchCpu nodes resolved missing)
  | .batchCpu nodes resolved missing =>
      let (cpu, found, missing) := missing.foldl probeCpu (s.cpu, [], [])
      some ({ s with cpu := cpu },
        if found = [] then s.resume truth [] (.batchNvme nodes resolved missing [])
        else .promoteGpu found (.batchNvme nodes (resolved ++ found) missing []))
  | .batchNvme nodes resolved missing spills =>
      some (s, .batchRead nodes resolved (missing.filter s.present.contains)
        (missing.filter fun n => !s.present.contains n) spills)
  | .batchRead nodes resolved hits absent spills =>
      (hits.mapM fun n => (s.file n).map fun row => (n, row)).map fun loaded =>
        match s.cold, absent with
        | none, node :: _ => (s, .done (.miss node))
        | _, absent => (s, .admitting loaded (.batchCold nodes (resolved ++ loaded) absent spills))
  | .promoteGpu rows after =>
      let (gpu, demoted) := rows.foldl placeOne (s.gpu, [])
      some ({ s with gpu := gpu }, .promoteCpu rows demoted after)
  | .promoteCpu rows demoted after =>
      let cpu := rows.foldl (fun cpu row => cpu.remove row.1) s.cpu
      let (cpu, spills) := s.admitAll cpu demoted
      some ({ s with cpu := cpu }, s.resume truth spills after)
  | .admitting rows after =>
      let (cpu, spills) := s.admitAll s.cpu rows
      some ({ s with cpu := cpu }, s.resume truth spills after)
  | .spillWrite [] result => some (s, .done result)
  | .spillWrite ((node, row) :: spills) result =>
      some ({ s with file := Function.update s.file node (some row) }, .spillMark node spills result)
  | .spillMark node spills result =>
      some ({ s with present := node :: s.present }, spilling spills result)
  | .done _ => none

/-- The insert a call has just completed, if any. -/
def insertedBy : CallPc Row → List Nat
  | .done (.inserted node) => [node]
  | _ => []

def begin (s : FeatureCache Row) (pc : CallPc Row) : FeatureCache Row :=
  { s with calls := s.calls ++ [⟨s.completed, pc⟩] }

def step (s : FeatureCache Row) : CacheEvent → Option (FeatureCache Row)
  | .get node => some (s.begin (.getGpu node))
  | .getBatch nodes => some (s.begin (.batchGpu nodes))
  | .insert node => some (s.begin (.saveRecord node))
  | .next i =>
      s.calls[i]?.bind fun c => (s.callStep truth c.pc).map fun r =>
        { r.1 with
          calls := s.calls.set i { c with pc := r.2 }
          completed := insertedBy r.2 ++ s.completed }

def run : FeatureCache Row → List CacheEvent → Option (FeatureCache Row)
  | s, [] => some s
  | s, e :: es => (s.step truth e).bind fun s => s.run es

/-- The section admits to the CPU tier a node that the GPU tier holds. -/
def admitsHot (s : FeatureCache Row) : CallPc Row → Bool
  | .promoteCpu _ demoted _ => demoted.any fun row => s.gpu.nodes.contains row.1
  | .admitting rows _ => rows.any fun row => s.gpu.nodes.contains row.1
  | _ => false

def duplicates (s : FeatureCache Row) : CacheEvent → Bool
  | .next i => s.calls[i]?.any fun c => s.admitsHot c.pc
  | _ => false

/-- No section of the run admits to the CPU tier a node that the GPU tier holds. -/
def exclusive : FeatureCache Row → List CacheEvent → Bool
  | _, [] => true
  | s, e :: es =>
      !s.duplicates e && ((s.step truth e).map fun s => s.exclusive es).getD true

def CallPc.isDone : CallPc Row → Bool
  | .done _ => true
  | _ => false

/-- What every result says of its nodes' rows. -/
def Faithful (known : List Nat) : CacheResult Row → Prop
  | .hit node row => row = truth node
  | .miss node => node ∉ known
  | .inserted _ => True
  | .rows nodes rows => rows = nodes.map fun n => some (truth n)

/-- Rows are their nodes' own, no completed insert is missed, tiers stay within capacity,
and with no call in progress no node is in both memory tiers. -/
structure CacheSafe (gpuCapacity cpuCapacity : Nat) (s : FeatureCache Row) : Prop where
  faithful : ∀ c ∈ s.calls, ∀ result, c.pc = .done result → Faithful truth c.known result
  gpu : s.gpu.nodes.Nodup ∧ s.gpu.nodes.length ≤ gpuCapacity
  cpu : s.cpu.nodes.Nodup ∧ s.cpu.nodes.length ≤ cpuCapacity
  apart : (∀ c ∈ s.calls, CallPc.isDone c.pc = true) → ∀ n ∈ s.gpu.nodes, n ∉ s.cpu.nodes

/-- Each row is its node's own. -/
def Own (rows : List (Nat × Row)) : Prop := ∀ r ∈ rows, r.2 = truth r.1

/-- Every requested node is resolved or still being looked for. -/
def Covered (nodes : List Nat) (resolved : List (Nat × Row)) (pending : List Nat) : Prop :=
  ∀ n ∈ nodes, n ∈ resolved.map Prod.fst ∨ n ∈ pending

def AfterGood (known : List Nat) : After Row → Prop
  | .get node row => row = truth node
  | .insert _ => True
  | .batchNvme nodes resolved missing spills =>
      Own truth resolved ∧ Covered nodes resolved missing ∧ Own truth spills
  | .batchCold nodes resolved cold spills =>
      Own truth resolved ∧ Covered nodes resolved cold ∧ Own truth spills ∧ ∀ n ∈ cold, n ∉ known
  | .batchEnd nodes resolved spills =>
      Own truth resolved ∧ Covered nodes resolved [] ∧ Own truth spills

def PcGood (s : FeatureCache Row) (known : List Nat) : CallPc Row → Prop
  | .markRecord node => s.file node = some (truth node)
  | .getRead node => node ∈ s.present
  | .batchCpu nodes resolved missing => Own truth resolved ∧ Covered nodes resolved missing
  | .batchNvme nodes resolved missing spills =>
      Own truth resolved ∧ Covered nodes resolved missing ∧ Own truth spills
  | .batchRead nodes resolved hits absent spills =>
      Own truth resolved ∧ Covered nodes resolved (hits ++ absent) ∧ Own truth spills ∧
        (∀ n ∈ hits, n ∈ s.present) ∧ ∀ n ∈ absent, n ∉ known
  | .promoteGpu rows after => Own truth rows ∧ AfterGood truth known after
  | .promoteCpu rows demoted after =>
      Own truth rows ∧ Own truth demoted ∧ AfterGood truth known after
  | .admitting rows after => Own truth rows ∧ AfterGood truth known after
  | .spillWrite spills result => Own truth spills ∧ Faithful truth known result
  | .spillMark node spills result =>
      s.file node = some (truth node) ∧ Own truth spills ∧ Faithful truth known result
  | .done result => Faithful truth known result
  | _ => True

/-- Nodes a call has put into the GPU tier and not yet taken out of the CPU tier. -/
def removes : CallPc Row → List Nat
  | .promoteCpu rows _ _ => rows.map Prod.fst
  | _ => []

/-- The node whose insert a result reports. -/
def reported : CacheResult Row → List Nat
  | .inserted node => [node]
  | _ => []

def owed : After Row → List Nat
  | .insert node => [node]
  | _ => []

/-- The node whose insert a call is to report. -/
def promised : CallPc Row → List Nat
  | .promoteGpu _ after => owed after
  | .promoteCpu _ _ after => owed after
  | .admitting _ after => owed after
  | .spillWrite _ result => reported result
  | .spillMark _ _ result => reported result
  | .done result => reported result
  | _ => []

structure Inv (gpuCapacity cpuCapacity : Nat) (s : FeatureCache Row) : Prop where
  gpu : s.gpu.Holds truth
  gpuCapacity : s.gpu.capacity = gpuCapacity
  cpu : s.cpu.Holds truth
  cpuCapacity : s.cpu.capacity = cpuCapacity
  records : ∀ n ∈ s.present, s.file n = some (truth n)
  completed : ∀ n ∈ s.completed, n ∈ s.present
  calls : ∀ c ∈ s.calls, (∀ n ∈ c.known, n ∈ s.present) ∧ (∀ n ∈ promised c.pc, n ∈ s.present) ∧
    PcGood truth s c.known c.pc
  apart : ∀ n ∈ s.gpu.nodes, n ∈ s.cpu.nodes →
    ∃ (j : Nat) (c : CacheCall Row), s.calls[j]? = some c ∧ n ∈ removes c.pc

variable {truth}

theorem Own.append {xs ys : List (Nat × Row)} (hx : Own truth xs) (hy : Own truth ys) :
    Own truth (xs ++ ys) := List.forall_mem_append.mpr ⟨hx, hy⟩

theorem own_nil : Own truth ([] : List (Nat × Row)) := fun _ h => absurd h List.not_mem_nil

theorem PcGood.mono {s s' : FeatureCache Row} {known : List Nat} {pc : CallPc Row}
    (h : PcGood truth s known pc) (present : ∀ n ∈ s.present, n ∈ s'.present)
    (file : ∀ n, s.file n = some (truth n) → s'.file n = some (truth n)) :
    PcGood truth s' known pc := by
  cases pc with
  | markRecord node => exact file node h
  | getRead node => exact present node h
  | batchRead nodes resolved hits absent spills =>
      exact ⟨h.1, h.2.1, h.2.2.1, fun n hn => present n (h.2.2.2.1 n hn), h.2.2.2.2⟩
  | spillMark node spills result => exact ⟨file node h.1, h.2⟩
  | _ => exact h

theorem lookup_own {resolved : List (Nat × Row)} (own : Own truth resolved) {n : Nat}
    (hn : n ∈ resolved.map Prod.fst) : resolved.lookup n = some (truth n) := by
  induction resolved with
  | nil => cases hn
  | cons r resolved ih =>
      obtain ⟨first, rest⟩ := List.forall_mem_cons.mp own
      rw [List.lookup_cons]
      split
      · rename_i same
        rw [first, eq_of_beq same]
      · rename_i other
        refine ih rest ((List.mem_cons.mp hn).resolve_left fun same => ?_)
        simp [same] at other

theorem faithful_assemble {known nodes : List Nat} {resolved : List (Nat × Row)}
    (own : Own truth resolved) (covered : Covered nodes resolved []) :
    Faithful truth known (assemble nodes resolved) := by
  refine List.map_congr_left fun n hn => lookup_own own ?_
  exact (covered n hn).resolve_right List.not_mem_nil

theorem spilling_good {s : FeatureCache Row} {known : List Nat} {spills : List (Nat × Row)}
    {result : CacheResult Row} (own : Own truth spills) (faithful : Faithful truth known result) :
    PcGood truth s known (spilling spills result) := by
  cases spills with
  | nil => exact faithful
  | cons r spills => exact ⟨own, faithful⟩

theorem resume_good {s s' : FeatureCache Row} {known : List Nat} {spills : List (Nat × Row)}
    {after : After Row} (own : Own truth spills) (good : AfterGood truth known after) :
    PcGood truth s' known (s.resume truth spills after) := by
  cases after with
  | get node row => exact spilling_good own good
  | insert node => exact spilling_good own trivial
  | batchNvme nodes resolved missing before =>
      obtain ⟨resolvedOwn, covered, beforeOwn⟩ := good
      simp only [resume]
      split
      · rename_i none
        subst none
        exact spilling_good (beforeOwn.append own) (faithful_assemble resolvedOwn covered)
      · exact ⟨resolvedOwn, covered, beforeOwn.append own⟩
  | batchCold nodes resolved cold before =>
      obtain ⟨resolvedOwn, covered, beforeOwn, unknown⟩ := good
      simp only [resume]
      split
      · rename_i none
        subst none
        exact spilling_good (beforeOwn.append own) (faithful_assemble resolvedOwn covered)
      · split
        · rename_i node found
          exact unknown node (List.mem_of_find?_eq_some found)
        · have rows : Own truth (cold.map fun n => (n, truth n)) :=
            List.forall_mem_map.mpr fun n _ => rfl
          refine ⟨rows, resolvedOwn.append rows, fun n hn => .inl ?_, beforeOwn.append own⟩
          simp only [List.map_append, List.map_map, List.mem_append]
          refine (covered n hn).imp id fun hc => ?_
          exact List.mem_map.mpr ⟨n, hc, rfl⟩
  | batchEnd nodes resolved before =>
      obtain ⟨resolvedOwn, covered, beforeOwn⟩ := good
      exact spilling_good (beforeOwn.append own) (faithful_assemble resolvedOwn covered)

theorem promised_spilling (spills : List (Nat × Row)) (result : CacheResult Row) :
    promised (spilling spills result) = reported result := by
  cases spills <;> rfl

/-- Only an insert goes on to report one. -/
theorem promised_resume (s : FeatureCache Row) (spills : List (Nat × Row)) (after : After Row)
    {n : Nat} (hn : n ∈ promised (s.resume truth spills after)) : n ∈ owed after := by
  cases after with
  | get node row => rwa [resume, promised_spilling] at hn
  | insert node => rwa [resume, promised_spilling] at hn
  | batchNvme nodes resolved missing before =>
      simp only [resume] at hn
      split at hn
      · rwa [promised_spilling] at hn
      · exact hn
  | batchCold nodes resolved cold before =>
      simp only [resume] at hn
      split at hn
      · rwa [promised_spilling] at hn
      · split at hn <;> exact hn
  | batchEnd nodes resolved before => rwa [resume, promised_spilling] at hn

/-- A tier and the rows it let go of, after a section that handed it the rows of `nodes`. -/
structure Placed (truth : Nat → Row) (c : SieveCache Row) (nodes : List Nat)
    (out : SieveCache Row × List (Nat × Row)) : Prop where
  holds : out.1.Holds truth
  capacity : out.1.capacity = c.capacity
  nodes : ∀ n ∈ out.1.nodes, n ∈ nodes ∨ n ∈ c.nodes
  own : Own truth out.2

theorem Placed.foldl {place : SieveCache Row × List (Nat × Row) → Nat × Row →
      SieveCache Row × List (Nat × Row)}
    (one : ∀ (acc : SieveCache Row × List (Nat × Row)) (node : Nat), acc.1.Holds truth →
      Own truth acc.2 → Placed truth acc.1 [node] (place acc (node, truth node)))
    {rows : List (Nat × Row)} (own : Own truth rows) (acc : SieveCache Row × List (Nat × Row))
    (holds : acc.1.Holds truth) (left : Own truth acc.2) :
    Placed truth acc.1 (rows.map Prod.fst) (rows.foldl place acc) := by
  induction rows generalizing acc with
  | nil => exact ⟨holds, rfl, fun n hn => .inr hn, left⟩
  | cons row rows ih =>
      obtain ⟨node, row⟩ := row
      obtain ⟨same, rest⟩ := List.forall_mem_cons.mp own
      obtain rfl : row = truth node := same
      have first := one acc node holds left
      have next := ih rest _ first.holds first.own
      refine ⟨next.holds, next.capacity.trans first.capacity, fun n hn => ?_, next.own⟩
      rw [List.map_cons, List.mem_cons]
      rcases next.nodes n hn with hn | hn
      · exact .inl (.inr hn)
      · exact (first.nodes n hn).imp (fun hn => .inl (List.mem_singleton.mp hn)) id

theorem placeOne_placed (acc : SieveCache Row × List (Nat × Row)) (node : Nat)
    (holds : acc.1.Holds truth) (left : Own truth acc.2) :
    Placed truth acc.1 [node] (placeOne acc (node, truth node)) := by
  have inserted := SieveCache.insert_inserted holds node
  have nodes : ∀ n ∈ (acc.1.insert node (truth node)).2.nodes, n ∈ [node] ∨ n ∈ acc.1.nodes :=
    fun n hn => (inserted.nodes n hn).imp List.mem_singleton.mpr id
  have single : Own truth [(node, truth node)] := List.forall_mem_singleton.mpr rfl
  unfold placeOne
  split
  · rename_i gpu out
    rw [out] at inserted nodes
    exact ⟨inserted.holds, inserted.capacity, nodes, left⟩
  · rename_i v r gpu out
    rw [out] at inserted nodes
    refine ⟨inserted.holds, inserted.capacity, nodes, left.append ?_⟩
    exact List.forall_mem_singleton.mpr (inserted.victim v r rfl).1
  · rename_i gpu out
    rw [out] at inserted nodes
    exact ⟨inserted.holds, inserted.capacity, nodes, left.append single⟩

theorem admitOne_placed (s : FeatureCache Row) (acc : SieveCache Row × List (Nat × Row))
    (node : Nat) (holds : acc.1.Holds truth) (left : Own truth acc.2) :
    Placed truth acc.1 [node] (s.admitOne acc (node, truth node)) := by
  have inserted := SieveCache.insert_inserted holds node
  have nodes : ∀ n ∈ (acc.1.insert node (truth node)).2.nodes, n ∈ [node] ∨ n ∈ acc.1.nodes :=
    fun n hn => (inserted.nodes n hn).imp List.mem_singleton.mpr id
  have single : Own truth [(node, truth node)] := List.forall_mem_singleton.mpr rfl
  unfold admitOne
  split
  · rename_i cpu out
    rw [out] at inserted nodes
    exact ⟨inserted.holds, inserted.capacity, nodes, left⟩
  · rename_i v r cpu out
    rw [out] at inserted nodes
    refine ⟨inserted.holds, inserted.capacity, nodes, ?_⟩
    have victim : Own truth [(v, r)] := List.forall_mem_singleton.mpr (inserted.victim v r rfl).1
    dsimp only
    split
    · exact left
    · exact left.append victim
  · rename_i cpu out
    rw [out] at inserted nodes
    refine ⟨inserted.holds, inserted.capacity, nodes, ?_⟩
    dsimp only
    split
    · exact left
    · exact left.append single

theorem admitAll_placed (s : FeatureCache Row) {cpu : SieveCache Row} (holds : cpu.Holds truth)
    {rows : List (Nat × Row)} (own : Own truth rows) :
    Placed truth cpu (rows.map Prod.fst) (s.admitAll cpu rows) :=
  Placed.foldl s.admitOne_placed own (cpu, []) holds own_nil

/-- A tier after the nodes `seen` were looked up: unchanged but for marks, and each node
found or listed. -/
structure Probed (truth : Nat → Row) (c : SieveCache Row) (seen : List Nat)
    (out : SieveCache Row × List (Nat × Row) × List Nat) : Prop where
  holds : out.1.Holds truth
  capacity : out.1.capacity = c.capacity
  nodes : out.1.nodes = c.nodes
  own : Own truth out.2.1
  covered : Covered seen out.2.1 out.2.2

theorem Covered.mono {nodes pending pending' : List Nat} {resolved resolved' : List (Nat × Row)}
    (h : Covered nodes resolved pending)
    (found : ∀ n ∈ resolved.map Prod.fst, n ∈ resolved'.map Prod.fst)
    (left : ∀ n ∈ pending, n ∈ pending') : Covered nodes resolved' pending' :=
  fun n hn => (h n hn).imp (found n) (left n)

theorem Covered.snoc {seen pending : List Nat} {resolved : List (Nat × Row)}
    (h : Covered seen resolved pending) {node : Nat}
    (new : node ∈ resolved.map Prod.fst ∨ node ∈ pending) :
    Covered (seen ++ [node]) resolved pending :=
  List.forall_mem_append.mpr ⟨h, List.forall_mem_singleton.mpr new⟩

theorem Probed.hit {c : SieveCache Row} {seen : List Nat}
    {acc : SieveCache Row × List (Nat × Row) × List Nat} (h : Probed truth c seen acc)
    {node : Nat} {row : Row} {c' : SieveCache Row} (hit : acc.1.get node = some (row, c')) :
    Probed truth c (seen ++ [node]) (c', acc.2.1 ++ [(node, row)], acc.2.2) := by
  obtain ⟨rfl, holds, nodes, capacity⟩ := h.holds.get hit
  have found : ∀ n ∈ acc.2.1.map Prod.fst, n ∈ (acc.2.1 ++ [(node, truth node)]).map Prod.fst :=
    fun n hn => by simp [List.map_append, hn]
  refine ⟨holds, capacity.trans h.capacity, nodes.trans h.nodes,
    h.own.append (List.forall_mem_singleton.mpr rfl), ?_⟩
  exact (h.covered.mono found fun n hn => hn).snoc (.inl (by simp))

theorem Probed.foldl {probe : SieveCache Row × List (Nat × Row) × List Nat → Nat →
      SieveCache Row × List (Nat × Row) × List Nat} {c : SieveCache Row}
    (one : ∀ (acc : SieveCache Row × List (Nat × Row) × List Nat) (seen : List Nat) (node : Nat),
      Probed truth c seen acc → Probed truth c (seen ++ [node]) (probe acc node))
    {acc : SieveCache Row × List (Nat × Row) × List Nat} {seen : List Nat}
    (h : Probed truth c seen acc) (nodes : List Nat) :
    Probed truth c (seen ++ nodes) (nodes.foldl probe acc) := by
  induction nodes generalizing acc seen with
  | nil => rwa [List.append_nil]
  | cons node nodes ih =>
      have next := ih (one acc seen node h)
      rwa [List.append_assoc] at next

theorem probed_start {c : SieveCache Row} (holds : c.Holds truth) :
    Probed truth c [] (c, [], []) := ⟨holds, rfl, rfl, own_nil, fun _ h => absurd h List.not_mem_nil⟩

theorem probeGpu_probed {c : SieveCache Row} (acc : SieveCache Row × List (Nat × Row) × List Nat)
    (seen : List Nat) (node : Nat) (h : Probed truth c seen acc) :
    Probed truth c (seen ++ [node]) (probeGpu acc node) := by
  unfold probeGpu
  split
  · rename_i known
    refine ⟨h.holds, h.capacity, h.nodes, h.own, h.covered.snoc (.inl ?_)⟩
    obtain ⟨row, found⟩ := Option.isSome_iff_exists.mp known
    obtain ⟨l₁, l₂, same, -⟩ := List.lookup_eq_some_iff.mp found
    rw [same]
    simp
  · split
    · rename_i row gpu found
      exact h.hit found
    · have covered : Covered seen acc.2.1
          (if node ∈ acc.2.2 then acc.2.2 else acc.2.2 ++ [node]) := by
        refine h.covered.mono (fun n hn => hn) fun n hn => ?_
        split
        · exact hn
        · exact List.mem_append_left _ hn
      refine ⟨h.holds, h.capacity, h.nodes, h.own, covered.snoc (.inr ?_)⟩
      split
      · assumption
      · exact List.mem_append_right _ List.mem_cons_self

theorem probeCpu_probed {c : SieveCache Row} (acc : SieveCache Row × List (Nat × Row) × List Nat)
    (seen : List Nat) (node : Nat) (h : Probed truth c seen acc) :
    Probed truth c (seen ++ [node]) (probeCpu acc node) := by
  unfold probeCpu
  split
  · rename_i row cpu found
    exact h.hit found
  · have covered : Covered seen acc.2.1 (acc.2.2 ++ [node]) :=
      h.covered.mono (fun n hn => hn) fun n hn => List.mem_append_left _ hn
    exact ⟨h.holds, h.capacity, h.nodes, h.own,
      covered.snoc (.inr (List.mem_append_right _ List.mem_cons_self))⟩

/-- Taking rows out of a tier. -/
theorem removeAll_holds {c : SieveCache Row} (holds : c.Holds truth) (rows : List (Nat × Row)) :
    (rows.foldl (fun cpu row => cpu.remove row.1) c).Holds truth ∧
      (rows.foldl (fun cpu row => cpu.remove row.1) c).capacity = c.capacity := by
  induction rows generalizing c with
  | nil => exact ⟨holds, rfl⟩
  | cons row rows ih => exact ih (SieveCache.remove_holds holds row.1)

theorem mem_removeAll {c : SieveCache Row} (rows : List (Nat × Row)) {n : Nat} :
    n ∈ (rows.foldl (fun cpu row => cpu.remove row.1) c).nodes ↔
      n ∈ c.nodes ∧ n ∉ rows.map Prod.fst := by
  induction rows generalizing c with
  | nil => simp
  | cons row rows ih =>
      rw [List.foldl_cons, ih, SieveCache.mem_remove, List.map_cons, List.mem_cons, not_or,
        and_assoc]

/-- What one section of a call does to the tiers, the file and the call. -/
structure Moved (truth : Nat → Row) (s : FeatureCache Row) (c : CacheCall Row)
    (s' : FeatureCache Row) (pc : CallPc Row) : Prop where
  gpu : s'.gpu.Holds truth
  gpuCapacity : s'.gpu.capacity = s.gpu.capacity
  cpu : s'.cpu.Holds truth
  cpuCapacity : s'.cpu.capacity = s.cpu.capacity
  present : ∀ n ∈ s.present, n ∈ s'.present
  file : ∀ n, s.file n = some (truth n) → s'.file n = some (truth n)
  records : ∀ n ∈ s'.present, s'.file n = some (truth n)
  promised : ∀ n ∈ promised pc, n ∈ s'.present
  good : PcGood truth s' c.known pc
  apart : ∀ n ∈ s'.gpu.nodes, n ∈ s'.cpu.nodes →
    n ∈ removes pc ∨ n ∈ s.gpu.nodes ∧ n ∈ s.cpu.nodes ∧ n ∉ removes c.pc

variable {gpuCapacity cpuCapacity : Nat}

theorem Inv.move {s s' : FeatureCache Row} (h : Inv truth gpuCapacity cpuCapacity s) {i : Nat}
    {c : CacheCall Row} (found : s.calls[i]? = some c) {pc : CallPc Row}
    (moved : Moved truth s c s' pc) :
    Inv truth gpuCapacity cpuCapacity { s' with
      calls := s.calls.set i { c with pc := pc }
      completed := insertedBy pc ++ s.completed } := by
  have inRange : i < s.calls.length := (List.getElem?_eq_some_iff.mp found).1
  refine ⟨moved.gpu, moved.gpuCapacity.trans h.gpuCapacity, moved.cpu,
    moved.cpuCapacity.trans h.cpuCapacity, moved.records, fun n hn => ?_, fun d hd => ?_,
    fun n hg hc => ?_⟩
  · rcases List.mem_append.mp hn with hn | hn
    · refine moved.promised n ?_
      cases pc with
      | done result =>
          cases result with
          | inserted node => exact hn
          | _ => exact absurd hn List.not_mem_nil
      | _ => exact absurd hn List.not_mem_nil
    · exact moved.present n (h.completed n hn)
  · rcases List.mem_or_eq_of_mem_set hd with hd | rfl
    · obtain ⟨known, prom, good⟩ := h.calls d hd
      exact ⟨fun n hn => moved.present n (known n hn), fun n hn => moved.present n (prom n hn),
        good.mono moved.present moved.file⟩
    · obtain ⟨known, -, -⟩ := h.calls c (List.mem_of_getElem? found)
      exact ⟨fun n hn => moved.present n (known n hn), moved.promised, moved.good⟩
  · rcases moved.apart n hg hc with hn | ⟨hg, hc, other⟩
    · exact ⟨i, _, List.getElem?_set_self inRange, hn⟩
    · obtain ⟨j, d, at_, hn⟩ := h.apart n hg hc
      have ne : i ≠ j := by
        rintro rfl
        rw [found] at at_
        exact other (Option.some.inj at_ ▸ hn)
      exact ⟨j, d, (List.getElem?_set_ne ne).trans at_, hn⟩

/-- A section that changes neither the file nor which nodes the tiers hold. -/
theorem Inv.stay {s s' : FeatureCache Row} (h : Inv truth gpuCapacity cpuCapacity s)
    {c : CacheCall Row} {pc : CallPc Row} (gpu : s'.gpu.Holds truth)
    (gpuKept : s'.gpu.capacity = s.gpu.capacity ∧ s'.gpu.nodes = s.gpu.nodes)
    (cpu : s'.cpu.Holds truth)
    (cpuKept : s'.cpu.capacity = s.cpu.capacity ∧ s'.cpu.nodes = s.cpu.nodes)
    (file : s'.file = s.file) (present : s'.present = s.present) (keeps : removes c.pc = [])
    (prom : ∀ n ∈ promised pc, n ∈ s'.present) (good : PcGood truth s' c.known pc) :
    Moved truth s c s' pc where
  gpu := gpu
  gpuCapacity := gpuKept.1
  cpu := cpu
  cpuCapacity := cpuKept.1
  present _ hn := present ▸ hn
  file _ hn := file ▸ hn
  records n hn := by
    rw [present] at hn
    rw [file]
    exact h.records n hn
  promised := prom
  good := good
  apart n hg hc := .inr ⟨gpuKept.2 ▸ hg, cpuKept.2 ▸ hc, keeps ▸ List.not_mem_nil⟩

/-- A section that only goes on. -/
theorem Inv.pass {s : FeatureCache Row} (h : Inv truth gpuCapacity cpuCapacity s)
    {c : CacheCall Row} {pc : CallPc Row} (keeps : removes c.pc = [])
    (prom : ∀ n ∈ promised pc, n ∈ s.present) (good : PcGood truth s c.known pc) :
    Moved truth s c s pc :=
  h.stay h.gpu ⟨rfl, rfl⟩ h.cpu ⟨rfl, rfl⟩ rfl rfl keeps prom good

/-- A section that writes records or lists them, each record its node's own. -/
theorem Inv.record {s s' : FeatureCache Row} (h : Inv truth gpuCapacity cpuCapacity s)
    {c : CacheCall Row} {pc : CallPc Row} (gpu : s'.gpu = s.gpu) (cpu : s'.cpu = s.cpu)
    (present : ∀ n ∈ s.present, n ∈ s'.present)
    (file : ∀ n, s.file n = some (truth n) → s'.file n = some (truth n))
    (records : ∀ n ∈ s'.present, s'.file n = some (truth n)) (keeps : removes c.pc = [])
    (prom : ∀ n ∈ promised pc, n ∈ s'.present) (good : PcGood truth s' c.known pc) :
    Moved truth s c s' pc where
  gpu := gpu ▸ h.gpu
  gpuCapacity := congrArg _ gpu
  cpu := cpu ▸ h.cpu
  cpuCapacity := congrArg _ cpu
  present := present
  file := file
  records := records
  promised := prom
  good := good
  apart _ hg hc := .inr ⟨gpu ▸ hg, cpu ▸ hc, keeps ▸ List.not_mem_nil⟩

theorem update_own {file : Nat → Option Row} (node : Nat) {n : Nat}
    (h : file n = some (truth n)) :
    Function.update file node (some (truth node)) n = some (truth n) := by
  by_cases same : n = node
  · rw [same, Function.update_self]
  · rw [Function.update_of_ne same, h]

/-- Loading records that are present reads their nodes' own rows. -/
theorem load_own {s : FeatureCache Row} (records : ∀ n ∈ s.present, s.file n = some (truth n))
    {hits : List Nat} (present : ∀ n ∈ hits, n ∈ s.present) :
    (hits.mapM fun n => (s.file n).map fun row => (n, row)) =
      some (hits.map fun n => (n, truth n)) := by
  induction hits with
  | nil => rfl
  | cons node hits ih =>
      obtain ⟨first, rest⟩ := List.forall_mem_cons.mp present
      rw [List.mapM_cons, ih rest, records node first]
      rfl

/-- The sections on the CPU tier that admit rows. -/
theorem Inv.admitting {s : FeatureCache Row} (h : Inv truth gpuCapacity cpuCapacity s)
    {c : CacheCall Row} {cpu : SieveCache Row} {demoted : List (Nat × Row)} {after : After Row}
    (holds : cpu.Holds truth) (capacity : cpu.capacity = s.cpu.capacity)
    (sub : ∀ n ∈ cpu.nodes, n ∈ s.cpu.nodes ∧ n ∉ removes c.pc) (own : Own truth demoted)
    (cool : ∀ n ∈ demoted.map Prod.fst, n ∉ s.gpu.nodes)
    (prom : ∀ n ∈ owed after, n ∈ s.present)
    (good : AfterGood truth c.known after) :
    Moved truth s c { s with cpu := (s.admitAll cpu demoted).1 }
      (s.resume truth (s.admitAll cpu demoted).2 after) := by
  have placed := admitAll_placed s holds own
  refine ⟨h.gpu, rfl, placed.holds, placed.capacity.trans capacity, fun n hn => hn,
    fun n hn => hn, h.records, fun n hn => prom n (promised_resume s _ after hn),
    resume_good placed.own good, fun n hg hc => .inr ?_⟩
  rcases placed.nodes n hc with hn | hn
  · exact absurd hg (cool n hn)
  · exact ⟨hg, sub n hn⟩

theorem cool_of_admitsHot {s : FeatureCache Row} {rows : List (Nat × Row)}
    (cool : (rows.any fun row => s.gpu.nodes.contains row.1) = false) :
    ∀ n ∈ rows.map Prod.fst, n ∉ s.gpu.nodes := by
  simpa using cool

theorem callStep_moved {s s' : FeatureCache Row} (h : Inv truth gpuCapacity cpuCapacity s)
    {c : CacheCall Row} (hc : c ∈ s.calls) (cool : s.admitsHot c.pc = false) {pc : CallPc Row}
    (next : s.callStep truth c.pc = some (s', pc)) : Moved truth s c s' pc := by
  obtain ⟨known, prom, good⟩ := h.calls c hc
  have none : ∀ n ∈ ([] : List Nat), n ∈ s.present := fun n hn => absurd hn List.not_mem_nil
  obtain ⟨ks, before⟩ := c
  dsimp only at known prom good next cool
  cases before with
  | saveRecord node =>
      cases next
      exact h.record rfl rfl (fun _ hn => hn) (fun _ => update_own node)
        (fun n hn => update_own node (h.records n hn)) rfl none
        (Function.update_self node _ s.file : _ = some (truth node))
  | markRecord node =>
      cases next
      exact h.record rfl rfl (fun _ hn => List.mem_cons_of_mem _ hn) (fun _ hn => hn)
        (List.forall_mem_cons.mpr ⟨good, h.records⟩) rfl
        (List.forall_mem_singleton.mpr List.mem_cons_self)
        ⟨List.forall_mem_singleton.mpr rfl, trivial⟩
  | getGpu node =>
      simp only [callStep] at next
      split at next
      · rename_i row gpu hit
        cases next
        obtain ⟨same, holds, nodes, capacity⟩ := h.gpu.get hit
        exact h.stay holds ⟨capacity, nodes⟩ h.cpu ⟨rfl, rfl⟩ rfl rfl rfl none same
      · cases next
        exact h.pass rfl none trivial
  | getCpu node =>
      simp only [callStep] at next
      split at next
      · rename_i row cpu hit
        cases next
        obtain ⟨same, holds, nodes, capacity⟩ := h.cpu.get hit
        exact h.stay h.gpu ⟨rfl, rfl⟩ holds ⟨capacity, nodes⟩ rfl rfl rfl none
          ⟨List.forall_mem_singleton.mpr same, same⟩
      · cases next
        exact h.pass rfl none trivial
  | getNvme node =>
      simp only [callStep] at next
      split at next
      · rename_i present
        cases next
        exact h.pass rfl none (List.contains_iff_mem.mp present)
      · rename_i absent
        split at next
        · cases next
          exact h.pass rfl none ⟨List.forall_mem_singleton.mpr rfl, rfl⟩
        · cases next
          exact h.pass rfl none fun hn => absent (List.contains_iff_mem.mpr (known node hn))
  | getRead node =>
      simp only [callStep, h.records node good, Option.map_some] at next
      cases next
      exact h.pass rfl none ⟨List.forall_mem_singleton.mpr rfl, rfl⟩
  | batchGpu nodes =>
      have probed := (probed_start h.gpu).foldl probeGpu_probed nodes
      simp only [callStep] at next
      cases next
      refine h.stay probed.holds ⟨probed.capacity, probed.nodes⟩ h.cpu ⟨rfl, rfl⟩ rfl rfl rfl ?_ ?_
      · split <;> exact none
      · have covered := probed.covered
        split
        · rename_i all
          rw [all] at covered
          exact (faithful_assemble probed.own covered : Faithful truth ks _)
        · exact ⟨probed.own, covered⟩
  | batchCpu nodes resolved missing =>
      obtain ⟨own, covered⟩ := good
      have probed := (probed_start h.cpu).foldl probeCpu_probed missing
      simp only [callStep] at next
      cases next
      refine h.stay h.gpu ⟨rfl, rfl⟩ probed.holds ⟨probed.capacity, probed.nodes⟩ rfl rfl rfl ?_ ?_
      · split
        · exact fun n hn => absurd (promised_resume s _ _ hn) List.not_mem_nil
        · exact none
      · have left : Covered nodes (resolved ++ (missing.foldl probeCpu (s.cpu, [], [])).2.1)
            (missing.foldl probeCpu (s.cpu, [], [])).2.2 := by
          intro n hn
          rw [List.map_append, List.mem_append, or_assoc]
          exact (covered n hn).imp id fun hm => probed.covered n hm
        split
        · rename_i found
          rw [found, List.append_nil] at left
          exact resume_good own_nil ⟨own, left, own_nil⟩
        · exact ⟨probed.own, own.append probed.own, left, own_nil⟩
  | batchNvme nodes resolved missing spills =>
      obtain ⟨own, covered, spillsOwn⟩ := good
      cases next
      refine h.pass rfl none ⟨own, covered.mono (fun n hn => hn) fun n hn => ?_, spillsOwn, ?_, ?_⟩
      · simp only [List.mem_append, List.mem_filter, hn, true_and]
        cases s.present.contains n <;> simp
      · exact fun n hn => List.contains_iff_mem.mp (List.mem_filter.mp hn).2
      · intro n hn hk
        have absent := (List.mem_filter.mp hn).2
        simp [known n hk] at absent
  | batchRead nodes resolved hits absent spills =>
      obtain ⟨own, covered, spillsOwn, present, unknown⟩ := good
      simp only [callStep, load_own h.records present, Option.map_some] at next
      have loaded : Own truth (hits.map fun n => (n, truth n)) :=
        List.forall_mem_map.mpr fun n _ => rfl
      split at next
      · rename_i node rest absent
        cases next
        exact h.pass rfl none (unknown node List.mem_cons_self)
      · cases next
        refine h.pass rfl none ⟨loaded, own.append loaded, fun n hn => ?_, spillsOwn, unknown⟩
        simp only [List.map_append, List.map_map, List.mem_append, or_assoc]
        refine (covered n hn).imp id fun hm => ?_
        exact (List.mem_append.mp hm).imp (fun hm => List.mem_map.mpr ⟨n, hm, rfl⟩) id
  | promoteGpu rows after =>
      obtain ⟨own, afterGood⟩ := good
      have placed : Placed truth s.gpu (rows.map Prod.fst) (rows.foldl placeOne (s.gpu, [])) :=
        Placed.foldl placeOne_placed own (s.gpu, []) h.gpu own_nil
      simp only [callStep] at next
      cases next
      refine ⟨placed.holds, placed.capacity, h.cpu, rfl, fun n hn => hn, fun n hn => hn, h.records,
        prom, ⟨own, placed.own, afterGood⟩, fun n hg hc => ?_⟩
      exact (placed.nodes n hg).imp id fun hg => ⟨hg, hc, List.not_mem_nil⟩
  | promoteCpu rows demoted after =>
      obtain ⟨own, demotedOwn, afterGood⟩ := good
      obtain ⟨holds, capacity⟩ := removeAll_holds h.cpu rows
      simp only [callStep] at next
      cases next
      exact h.admitting holds capacity (fun n hn => (mem_removeAll rows).mp hn) demotedOwn
        (cool_of_admitsHot cool) prom afterGood
  | admitting rows after =>
      obtain ⟨own, afterGood⟩ := good
      cases next
      exact h.admitting h.cpu rfl (fun n hn => ⟨hn, List.not_mem_nil⟩) own
        (cool_of_admitsHot cool) prom afterGood
  | spillWrite spills result =>
      obtain ⟨own, faithful⟩ := good
      cases spills with
      | nil =>
          cases next
          exact h.pass rfl prom faithful
      | cons r spills =>
          obtain ⟨node, row⟩ := r
          obtain ⟨same, rest⟩ := List.forall_mem_cons.mp own
          obtain rfl : row = truth node := same
          cases next
          exact h.record rfl rfl (fun _ hn => hn) (fun _ => update_own node)
            (fun n hn => update_own node (h.records n hn)) rfl prom
            ⟨Function.update_self node _ s.file, rest, faithful⟩
  | spillMark node spills result =>
      obtain ⟨file, own, faithful⟩ := good
      cases next
      refine h.record rfl rfl (fun _ hn => List.mem_cons_of_mem _ hn) (fun _ hn => hn)
        (List.forall_mem_cons.mpr ⟨file, h.records⟩) rfl (fun n hn => ?_) (spilling_good own faithful)
      rw [promised_spilling] at hn
      exact List.mem_cons_of_mem _ (prom n hn)
  | done result => cases next

/-- A call that begins knows the inserts completed so far. -/
theorem Inv.begin {s : FeatureCache Row} (h : Inv truth gpuCapacity cpuCapacity s)
    {pc : CallPc Row} (prom : promised pc = []) (good : PcGood truth s s.completed pc) :
    Inv truth gpuCapacity cpuCapacity (s.begin pc) where
  gpu := h.gpu
  gpuCapacity := h.gpuCapacity
  cpu := h.cpu
  cpuCapacity := h.cpuCapacity
  records := h.records
  completed := h.completed
  calls c hc := by
    rcases List.mem_append.mp hc with hc | hc
    · obtain ⟨known, prom, good⟩ := h.calls c hc
      exact ⟨known, prom, good.mono (fun _ hn => hn) fun _ hn => hn⟩
    · rw [List.mem_singleton.mp hc]
      exact ⟨h.completed, prom ▸ fun n hn => absurd hn List.not_mem_nil,
        good.mono (fun _ hn => hn) fun _ hn => hn⟩
  apart n hg hc := by
    obtain ⟨j, c, found, hn⟩ := h.apart n hg hc
    have inRange : j < s.calls.length := (List.getElem?_eq_some_iff.mp found).1
    exact ⟨j, c, (List.getElem?_append_left inRange).trans found, hn⟩

theorem Inv.step {s s' : FeatureCache Row} (h : Inv truth gpuCapacity cpuCapacity s)
    {e : CacheEvent} (cool : s.duplicates e = false) (stepped : s.step truth e = some s') :
    Inv truth gpuCapacity cpuCapacity s' := by
  cases e with
  | get node =>
      cases stepped
      exact h.begin rfl trivial
  | getBatch nodes =>
      cases stepped
      exact h.begin rfl trivial
  | insert node =>
      cases stepped
      exact h.begin rfl trivial
  | next i =>
      obtain ⟨c, found, moved⟩ := Option.bind_eq_some_iff.mp stepped
      obtain ⟨⟨s₁, pc⟩, called, rfl⟩ := Option.map_eq_some_iff.mp moved
      have hc : c ∈ s.calls := List.mem_of_getElem? found
      simp only [duplicates, found, Option.any_some] at cool
      exact h.move found (callStep_moved h hc cool called)

theorem Inv.run {s s' : FeatureCache Row} (h : Inv truth gpuCapacity cpuCapacity s)
    {es : List CacheEvent} (excl : s.exclusive truth es = true)
    (ran : s.run truth es = some s') : Inv truth gpuCapacity cpuCapacity s' := by
  induction es generalizing s with
  | nil =>
      cases ran
      exact h
  | cons e es ih =>
      obtain ⟨s₁, stepped, ran⟩ := Option.bind_eq_some_iff.mp ran
      simp only [exclusive, stepped, Option.map_some, Option.getD_some, Bool.and_eq_true,
        Bool.not_eq_true'] at excl
      exact ih (h.step excl.1 stepped) excl.2 ran

theorem new_inv (gpuCapacity cpuCapacity : Nat) (warmup pinned : List Nat) (cold : Option Nat) :
    Inv truth gpuCapacity cpuCapacity (new gpuCapacity cpuCapacity warmup pinned cold) where
  gpu := SieveCache.holds_new truth _ _ _
  gpuCapacity := rfl
  cpu := SieveCache.holds_new truth _ _ _
  cpuCapacity := rfl
  records _ hn := absurd hn List.not_mem_nil
  completed _ hn := absurd hn List.not_mem_nil
  calls _ hc := absurd hc List.not_mem_nil
  apart _ hn := absurd hn List.not_mem_nil

theorem Inv.safe {s : FeatureCache Row} (h : Inv truth gpuCapacity cpuCapacity s) :
    CacheSafe truth gpuCapacity cpuCapacity s where
  faithful c hc result done := by
    obtain ⟨-, -, good⟩ := h.calls c hc
    rw [done] at good
    exact good
  gpu := ⟨h.gpu.nodup, h.gpuCapacity ▸ h.gpu.small⟩
  cpu := ⟨h.cpu.nodup, h.cpuCapacity ▸ h.cpu.small⟩
  apart idle n hg hc := by
    obtain ⟨j, c, found, hn⟩ := h.apart n hg hc
    have finished := idle c (List.mem_of_getElem? found)
    cases pc : c.pc with
    | done result =>
        rw [pc] at hn
        exact List.not_mem_nil hn
    | _ =>
        rw [pc] at finished
        exact Bool.false_ne_true finished

/-- Rows are never lost or mixed up, tiers stay within capacity, and an idle cache holds no
node twice, in every run that admits no node of the GPU tier to the CPU tier. -/
theorem cacheSafe_of_exclusive (truth : Nat → Row) (gpuCapacity cpuCapacity : Nat)
    (warmup pinned : List Nat) (cold : Option Nat) (es : List CacheEvent) (s : FeatureCache Row)
    (excl : (new gpuCapacity cpuCapacity warmup pinned cold).exclusive truth es = true)
    (ran : (new gpuCapacity cpuCapacity warmup pinned cold).run truth es = some s) :
    CacheSafe truth gpuCapacity cpuCapacity s :=
  ((new_inv gpuCapacity cpuCapacity warmup pinned cold).run excl ran).safe

/-- A read of node 0 from the backing tier, up to its admission; another read admits the
node; a third one promotes it. -/
def crossing : List CacheEvent :=
  [.get 0, .next 0, .next 0, .next 0, .get 0, .next 1, .next 1, .next 1, .next 1,
    .get 0, .next 2, .next 2, .next 2, .next 2]

theorem cacheSafe_of_exclusive_crossing : ∃ s : FeatureCache Nat,
    (new 1 1 [] [] (some 1)).run id crossing = some s ∧ CacheSafe id 1 1 s := by
  have runs : (((new 1 1 [] [] (some 1)).run id crossing : Option (FeatureCache Nat))).isSome := by
    decide +kernel
  obtain ⟨s, ran⟩ := Option.isSome_iff_exists.mp runs
  exact ⟨s, ran, cacheSafe_of_exclusive id 1 1 [] [] (some 1) crossing s (by decide +kernel) ran⟩

/-- The first read then admits the node that the GPU tier holds: with every call over, the
node is in both tiers. -/
theorem cacheSafe_fails : ∃ s : FeatureCache Nat,
    (new 1 1 [] [] (some 1)).run id (crossing ++ [.next 0]) = some s ∧ ¬ CacheSafe id 1 1 s := by
  have twice : (((new 1 1 [] [] (some 1)).run id (crossing ++ [.next 0])).any fun s =>
      s.calls.all (fun c => CallPc.isDone c.pc) &&
        decide (0 ∈ s.gpu.nodes ∧ 0 ∈ s.cpu.nodes)) = true := by
    decide +kernel
  obtain ⟨s, ran, twice⟩ := (Option.any_eq_true _ _).mp twice
  obtain ⟨idle, both⟩ := Bool.and_eq_true_iff.mp twice
  obtain ⟨gpu, cpu⟩ := of_decide_eq_true both
  exact ⟨s, ran, fun safe => safe.apart (List.all_eq_true.mp idle) 0 gpu cpu⟩

end FeatureCache

end AetherGraph
