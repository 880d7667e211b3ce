import AetherGraph.SamplerFaithful
import Mathlib.Algebra.Order.Monoid.Unbundled.WithTop

/-! Time bounds of a temporal pass against the walks of its emitted edges.  A node's bound
is what the paths so far gave it; a path that reaches it after its expansion comes too
late for the edges already drawn there. -/

namespace AetherGraph

namespace Pass

section Walks

variable {Time : Type} [LinearOrder Time]

/-- A walk over emitted edges, between node ids. -/
def Walks (edges : List SampledEdge) : Nat → Nat → Prop :=
  Relation.ReflTransGen fun u v => ∃ e ∈ edges, e.src = u ∧ e.dst = v

/-- Every edge on every walk from a seed is earlier than the seed's time. -/
def NoLeak (time : SampledEdge → Time) (seeds : List (Nat × Time)) (edges : List SampledEdge) :
    Prop :=
  ∀ s ∈ seeds, ∀ e ∈ edges, Walks edges s.1 e.src → time e < s.2

/-- Emitting `e` after `edges` brings no seed to an edge emitted earlier that is too late
for it. -/
def InTime (time : SampledEdge → Time) (seeds : List (Nat × Time)) (edges : List SampledEdge)
    (e : SampledEdge) : Prop :=
  ∀ s ∈ seeds, Walks edges s.1 e.src → ∀ e' ∈ edges, Walks edges e.dst e'.src → time e' < s.2

/-- Each edge meets the condition against the edges emitted before it. -/
def EveryStep (P : List SampledEdge → SampledEdge → Prop) (edges : List SampledEdge) : Prop :=
  ∀ before e after, edges = before ++ e :: after → P before e

theorem everyStep_nil (P : List SampledEdge → SampledEdge → Prop) : EveryStep P [] :=
  fun before e after h => absurd h.symm (by simp)

theorem everyStep_concat {P : List SampledEdge → SampledEdge → Prop} {edges : List SampledEdge}
    {e : SampledEdge} : EveryStep P (edges ++ [e]) ↔ EveryStep P edges ∧ P edges e := by
  constructor
  · refine fun h => ⟨fun before x after same => h before x (after ++ [e]) ?_, h edges e [] rfl⟩
    rw [same, List.append_assoc, List.cons_append]
  · rintro ⟨h, last⟩ before x after same
    rcases List.eq_nil_or_concat' after with rfl | ⟨after, y, rfl⟩
    · obtain ⟨rfl, one⟩ := List.append_inj' same rfl
      obtain rfl : e = x := (List.cons.inj one).1
      exact last
    · rw [← List.cons_append, ← List.append_assoc] at same
      obtain ⟨rfl, -⟩ := List.append_inj' same rfl
      exact h before x after rfl

variable {edges : List SampledEdge} {time : SampledEdge → Time} {seeds : List (Nat × Time)}

theorem Walks.mono {u v : Nat} (h : Walks edges u v) {more : List SampledEdge}
    (sub : edges ⊆ more) : Walks more u v :=
  h.lift id fun _ _ ⟨e, he, ends⟩ => ⟨e, sub he, ends⟩

/-- A walk over one more edge stays off it, or comes to its source and leaves its target
without it. -/
theorem walks_concat {e : SampledEdge} {u v : Nat} (h : Walks (edges ++ [e]) u v) :
    Walks edges u v ∨ Walks edges u e.src ∧ Walks edges e.dst v := by
  induction h with
  | refl => exact .inl .refl
  | tail _ step ih =>
      obtain ⟨e', he', rfl, rfl⟩ := step
      rcases List.mem_append.mp he' with he' | he'
      · have here : Walks edges e'.src e'.dst := .single ⟨e', he', rfl, rfl⟩
        exact ih.imp (fun walk => walk.trans here) fun ⟨walk, rest⟩ => ⟨walk, rest.trans here⟩
      · obtain rfl := List.mem_singleton.mp he'
        exact .inr ⟨ih.elim id And.left, .refl⟩

/-- A walk that ends at `u` needs no edge out of `u`. -/
theorem walks_off {row : List SampledEdge} {s u : Nat} (out : ∀ e ∈ row, e.src = u)
    (h : Walks (edges ++ row) s u) : Walks edges s u := by
  induction h using Relation.ReflTransGen.head_induction_on with
  | refl => exact .refl
  | head step _ ih =>
      obtain ⟨e, he, rfl, rfl⟩ := step
      rcases List.mem_append.mp he with he | he
      · exact .head ⟨e, he, rfl, rfl⟩ ih
      · rw [out e he]
        exact .refl

/-- What an emission must meet for its own edge: earlier than every seed that reaches it, as
long as nothing has leaked. -/
def Timely (time : SampledEdge → Time) (seeds : List (Nat × Time)) (edges : List SampledEdge)
    (e : SampledEdge) : Prop :=
  NoLeak time seeds edges → ∀ s ∈ seeds, Walks edges s.1 e.src → time e < s.2

theorem noLeak_concat {e : SampledEdge} (timely : Timely time seeds edges e) :
    NoLeak time seeds (edges ++ [e]) ↔ NoLeak time seeds edges ∧ InTime time seeds edges e := by
  have sub : edges ⊆ edges ++ [e] := List.subset_append_left _ _
  constructor
  · refine fun h => ⟨fun s hs x hx walk => h s hs x (sub hx) (walk.mono sub),
      fun s hs reach x hx rest => h s hs x (sub hx) ?_⟩
    have own : Walks (edges ++ [e]) e.src e.dst :=
      .single ⟨e, List.mem_append_right _ List.mem_cons_self, rfl, rfl⟩
    exact ((reach.mono sub).trans own).trans (rest.mono sub)
  · rintro ⟨safe, inTime⟩ s hs x hx walk
    rcases List.mem_append.mp hx with hx | hx
    · rcases walks_concat walk with walk | ⟨reach, rest⟩
      · exact safe s hs x hx walk
      · exact inTime s hs reach x hx rest
    · obtain rfl := List.mem_singleton.mp hx
      exact timely safe s hs ((walks_concat walk).elim id And.left)

/-- Where every edge is timely on its own, nothing leaks exactly when no edge comes too late. -/
theorem noLeak_iff (timely : EveryStep (Timely time seeds) edges) :
    NoLeak time seeds edges ↔ EveryStep (InTime time seeds) edges := by
  induction edges using List.reverseRecOn with
  | nil => exact ⟨fun _ => everyStep_nil _, fun _ s _ e he => absurd he List.not_mem_nil⟩
  | append_singleton edges e ih =>
      obtain ⟨before, own⟩ := everyStep_concat.mp timely
      rw [noLeak_concat own, everyStep_concat, ih before]

end Walks

section Bounds

variable {σ : Type} [Rng σ] {Time : Type} [LinearOrder Time] [OrderTop Time]
variable {ops : SliceOps} {g : Csr Time} {cfg : SamplingConfig} {p : Pass Time} {ts : List Time}

/-- The timestamp of an emitted edge. -/
def stampOf (ts : List Time) (e : SampledEdge) : Time := ts.getD e.eid ⊤

variable (ops) in
/-- A temporal expansion draws positions before the node's bound at its start, and gives
each neighbor the timestamp of the edge that reaches it. -/
theorem rowPicks_before {strategy : TemporalStrategy} (temporal : cfg.temporalStrategy = some strategy)
    (stamps : g.timestamps = some ts) (sampleSize : Nat) (p : Pass Time) (entry : Nat × Nat) (r : σ) :
    ∀ i ∈ (p.rowPicks ops g cfg true sampleSize entry r).1, i < g.degree entry.1 ∧
      (p.rowPicks ops g cfg true sampleSize entry r).2.1 i =
        ts.getD ((g.neighborRange entry.1).1 + i) ⊤ ∧
      ts.getD ((g.neighborRange entry.1).1 + i) ⊤ < p.times.getD entry.2 ⊤ := by
  have draw := (rowPicks_draw ops g cfg (temporal ▸ rfl : true = cfg.temporalStrategy.isSome)
    sampleSize p entry r).lt
  intro i hi
  refine ⟨draw i hi, ?_⟩
  have inRow := draw i hi
  have at_ : (slice ts (g.neighborRange entry.1)).getD i ⊤ =
      ts.getD ((g.neighborRange entry.1).1 + i) ⊤ := by
    rw [List.getD_eq_getElem?_getD, List.getD_eq_getElem?_getD, slice_getElem? _ _ inRow]
  unfold rowPicks at hi ⊢
  dsimp only at hi ⊢
  split at hi
  · exact absurd hi List.not_mem_nil
  · rename_i nonempty
    rw [if_neg nonempty]
    simp only [if_true, stamps, temporal] at hi ⊢
    rw [at_]
    refine ⟨rfl, ?_⟩
    have length : (slice ts (g.neighborRange entry.1)).length =
        (slice g.edges (g.neighborRange entry.1)).length := by
      rw [slice_length (g.timestamps_length ts stamps ▸ Csr.neighborRange_le entry.1),
        slice_length (Csr.neighborRange_le entry.1)]
    have eligible := eligible_eligible cfg (p.times.getD entry.2 ⊤) strategy length r
    obtain ⟨-, -, chosen⟩ := temporalPicks_picked ops (k := sampleSize) strategy eligible.picked
      (Pass.eligible cfg strategy _ (slice ts (g.neighborRange entry.1)) (p.times.getD entry.2 ⊤) r).2
    obtain ⟨e, he, rfl⟩ := List.mem_map.mp (chosen i hi)
    exact at_ ▸ eligible.before e he

variable (g cfg) in
omit [OrderTop Time] in
/-- Emitting an edge whose neighbor lies in the graph registers the neighbor under the edge's
time and appends the edge; otherwise nodes, times and edges stay. -/
theorem emit_effect (src srcLocal : Nat) (p : Pass Time) (dst eid : Nat) (time : Time) :
    ((p.emit g cfg src srcLocal dst eid time).nodes = p.nodes ∧
        (p.emit g cfg src srcLocal dst eid time).times = p.times ∧
        (p.emit g cfg src srcLocal dst eid time).edges = p.edges) ∨
      ((p.emit g cfg src srcLocal dst eid time).nodes = (p.register dst time).nodes ∧
        (p.emit g cfg src srcLocal dst eid time).times = (p.register dst time).times ∧
        (p.emit g cfg src srcLocal dst eid time).edges =
          p.edges ++ [⟨src, srcLocal, dst, p.nodes.idxOf dst, eid⟩]) := by
  obtain ⟨same, -, -⟩ | ⟨-, noted, -, kept, ⟨-, same⟩ | ⟨-, same⟩⟩ :=
    emit_cases g cfg src srcLocal p dst eid time
  · rw [same]
    exact .inl ⟨rfl, rfl, rfl⟩
  · rw [same, kept]
    exact .inl ⟨rfl, rfl, rfl⟩
  · have nodes : (if dst ∈ p.nodes then p.nodes else p.nodes ++ [dst]) =
        (p.register dst time).nodes := (congrArg Pass.nodes (register_eq p dst time)).symm
    have times : (noted.register dst time).times = (p.register dst time).times := by
      rw [kept]
      unfold register
      dsimp only
      split <;> rfl
    rw [same, push_eq, times, kept]
    exact .inr ⟨nodes, rfl, rfl⟩

/-- Each node has a bound that `bounds` allows it. -/
structure TimesMeet (bounds : Nat → Time → Prop) (p : Pass Time) : Prop where
  track : p.trackTimes = true
  length : p.times.length = p.nodes.length
  meet : ∀ (l x : Nat) (b : Time), p.nodes[l]? = some x → p.times[l]? = some b → bounds x b

omit [OrderTop Time] in
/-- Registering under a time keeps bounds that may be lowered to that time. -/
theorem TimesMeet.register {bounds bounds' : Nat → Time → Prop} (h : TimesMeet bounds p) (id : Nat)
    (time : Time)
    (others : ∀ x b, x ∈ p.nodes → x ≠ id → bounds x b → bounds' x b)
    (known : id ∈ p.nodes → ∀ b, bounds id b → bounds' id (min time b))
    (new : id ∉ p.nodes → bounds' id time) (nodup : p.nodes.Nodup) :
    TimesMeet bounds' (p.register id time) := by
  have lower_eq : ∀ b : Time, NeighborSampler.lower time b = min time b := by
    intro b
    unfold NeighborSampler.lower
    split
    · rename_i less
      exact (min_eq_left less.le).symm
    · rename_i more
      exact (min_eq_right (not_lt.mp more)).symm
  unfold Pass.register
  by_cases old : id ∈ p.nodes
  · rw [if_pos old]
    simp only [h.track, if_true]
    refine ⟨rfl, by rw [List.length_modify, h.length], fun l x b hx hb => ?_⟩
    dsimp only at hx hb
    rw [List.getElem?_modify] at hb
    by_cases here : p.nodes.idxOf id = l
    · subst here
      obtain rfl : id = x := by
        rw [List.getElem?_idxOf old] at hx
        exact Option.some.inj hx
      simp only [if_true] at hb
      obtain ⟨b', hb', rfl⟩ := Option.map_eq_some_iff.mp hb
      rw [lower_eq]
      exact known old b' (h.meet _ _ _ hx hb')
    · simp only [here, if_false, id_map'] at hb
      have ne : x ≠ id := by
        rintro rfl
        obtain ⟨hl, at_⟩ := List.getElem?_eq_some_iff.mp hx
        exact here (at_ ▸ nodup.idxOf_getElem l hl)
      exact others x b (List.mem_of_getElem? hx) ne (h.meet l x b hx hb)
  · rw [if_neg old]
    simp only [h.track, if_true]
    refine ⟨rfl, by rw [List.length_append, List.length_append, h.length]; rfl,
      fun l x b hx hb => ?_⟩
    dsimp only at hx hb
    rcases Nat.lt_or_ge l p.nodes.length with before | after
    · rw [List.getElem?_append_left before] at hx
      rw [List.getElem?_append_left (h.length ▸ before)] at hb
      have mem := List.mem_of_getElem? hx
      exact others x b mem (fun same => old (same ▸ mem)) (h.meet l x b hx hb)
    · rw [List.getElem?_append_right after] at hx
      rw [List.getElem?_append_right (h.length ▸ after), h.length] at hb
      obtain rfl : id = x := List.mem_singleton.mp (List.mem_of_getElem? hx) |>.symm
      obtain rfl : time = b := List.mem_singleton.mp (List.mem_of_getElem? hb) |>.symm
      exact new old

/-- What the bound of a node is kept below: the times of its seeds, and the edges that reached it. -/
def SharedBound (ts : List Time) (seeds : List (Nat × Time)) (edges : List SampledEdge) (x : Nat)
    (b : Time) : Prop :=
  (∀ s ∈ seeds, s.1 = x → b ≤ s.2) ∧ ∀ e ∈ edges, e.dst = x → b ≤ stampOf ts e

/-- The state of a shared temporal pass. -/
structure Shared (g : Csr Time) (ts : List Time) (seeds : List (Nat × Time)) (p : Pass Time) :
    Prop where
  sound : Sound g p
  bounds : TimesMeet (SharedBound ts seeds p.edges) p
  seedsIn : ∀ s ∈ seeds, s.1 ∈ p.nodes
  timely : EveryStep (Timely (stampOf ts) seeds) p.edges

theorem Shared.emit {seeds : List (Nat × Time)} (h : Shared g ts seeds p) {src srcLocal : Nat}
    (named : p.nodes[srcLocal]? = some src) {dst eid : Nat}
    (row : (g.neighborRange src).1 ≤ eid ∧ eid < (g.neighborRange src).2)
    (target : g.edges[eid]? = some dst)
    (own : ∀ dstLocal, Timely (stampOf ts) seeds p.edges ⟨src, srcLocal, dst, dstLocal, eid⟩) :
    Shared g ts seeds (p.emit g cfg src srcLocal dst eid (ts.getD eid ⊤)) := by
  have sound : Sound g (p.emit g cfg src srcLocal dst eid (ts.getD eid ⊤)) :=
    h.sound.emit named row target (ts.getD eid ⊤)
  obtain ⟨-, -, -, track⟩ := emit_frame g cfg src srcLocal p dst eid (ts.getD eid ⊤)
  obtain ⟨nodes, times, edges⟩ | ⟨nodes, times, edges⟩ :=
    emit_effect g cfg src srcLocal p dst eid (ts.getD eid ⊤)
  · refine ⟨sound, ⟨track.trans h.bounds.track, ?_, ?_⟩, ?_, ?_⟩
    · rw [nodes, times, h.bounds.length]
    · rw [nodes, times, edges]
      exact h.bounds.meet
    · rw [nodes]
      exact h.seedsIn
    · rw [edges]
      exact h.timely
  · have registered : TimesMeet (SharedBound ts seeds
        (p.edges ++ [⟨src, srcLocal, dst, p.nodes.idxOf dst, eid⟩]))
        (p.register dst (ts.getD eid ⊤)) := h.bounds.register dst (ts.getD eid ⊤)
      (fun x b _ ne old => ⟨old.1, List.forall_mem_append.mpr ⟨old.2, fun e he => by
        rw [List.mem_singleton.mp he]
        exact fun same => absurd same.symm ne⟩⟩)
      (fun _ b old => ⟨fun s hs same => le_trans (min_le_right _ _) (old.1 s hs same),
        List.forall_mem_append.mpr ⟨fun e he same => le_trans (min_le_right _ _) (old.2 e he same),
          fun e he _ => by
            rw [List.mem_singleton.mp he]
            exact min_le_left _ _⟩⟩)
      (fun new => ⟨fun s hs same => absurd (same ▸ h.seedsIn s hs) new,
        List.forall_mem_append.mpr ⟨fun e he same => absurd
          (same ▸ List.mem_of_getElem? (h.sound.edges e he).dst) new, fun e he _ => by
            rw [List.mem_singleton.mp he]
            exact le_refl _⟩⟩)
      h.sound.nodup
    refine ⟨sound, ⟨track.trans h.bounds.track, ?_, ?_⟩, ?_, ?_⟩
    · rw [nodes, times]
      exact registered.length
    · rw [nodes, times, edges]
      exact registered.meet
    · rw [nodes, register_eq]
      intro s hs
      have old := h.seedsIn s hs
      dsimp only
      split
      · exact old
      · exact List.mem_append_left _ old
    · rw [edges]
      exact everyStep_concat.mpr ⟨h.timely, own _⟩

/-- What each emission before the node's bound keeps, a temporal expansion keeps. -/
theorem expand_induct {strategy : TemporalStrategy}
    (temporal : cfg.temporalStrategy = some strategy) (stamps : g.timestamps = some ts)
    {Q : Pass Time → Prop} (sampleSize : Nat) (r : σ) {entry : Nat × Nat} (h : Q p)
    (step : ∀ q i dst, Q q → q.frontier = p.frontier → i < g.degree entry.1 →
      g.edges[(g.neighborRange entry.1).1 + i]? = some dst →
      ts.getD ((g.neighborRange entry.1).1 + i) ⊤ < p.times.getD entry.2 ⊤ →
      Q (q.emit g cfg entry.1 entry.2 dst ((g.neighborRange entry.1).1 + i)
        (ts.getD ((g.neighborRange entry.1).1 + i) ⊤))) :
    Q (expand ops g cfg true sampleSize (p, r) entry).1 := by
  have before := rowPicks_before ops temporal stamps sampleSize p entry r
  unfold expand
  dsimp only
  generalize (p.rowPicks ops g cfg true sampleSize entry r).2.1 = time at before ⊢
  generalize (p.rowPicks ops g cfg true sampleSize entry r).1 = picks at before ⊢
  suffices run : ∀ q, Q q → q.frontier = p.frontier → Q (q.emitAll g cfg entry.1 entry.2
      (slice g.edges (g.neighborRange entry.1)) (g.neighborRange entry.1).1 time picks) from
    run p h rfl
  induction picks with
  | nil => exact fun _ h _ => h
  | cons i picks ih =>
      obtain ⟨⟨inRow, stamp, less⟩, later⟩ := List.forall_mem_cons.mp before
      intro q h frontier
      have target : g.edges[(g.neighborRange entry.1).1 + i]? =
          some ((slice g.edges (g.neighborRange entry.1)).getD i 0) := by
        have inNeighbors : i < (g.neighbors entry.1).length := by rwa [Csr.neighbors_length]
        rw [← Csr.neighbors_getElem? inRow]
        change (g.neighbors entry.1)[i]? = some ((g.neighbors entry.1).getD i 0)
        rw [List.getD_eq_getElem _ _ inNeighbors, List.getElem?_eq_getElem inNeighbors]
      refine ih later (q.emit g cfg entry.1 entry.2 _ _ (time i)) ?_ ?_
      · rw [stamp]
        exact step q i _ h frontier inRow target less
      · exact (emit_frame g cfg _ _ _ _ _ _).1.trans frontier

theorem TimesMeet.bound {bounds : Nat → Time → Prop} (h : TimesMeet bounds p) {l x : Nat}
    (named : p.nodes[l]? = some x) : bounds x (p.times.getD l ⊤) := by
  have inTimes : l < p.times.length := h.length ▸ (List.getElem?_eq_some_iff.mp named).1
  rw [List.getD_eq_getElem _ _ inTimes]
  exact h.meet l x _ named (List.getElem?_eq_getElem inTimes)

omit [LinearOrder Time] [OrderTop Time] in
theorem row_bounds {node i : Nat} (inRow : i < g.degree node) :
    (g.neighborRange node).1 ≤ (g.neighborRange node).1 + i ∧
      (g.neighborRange node).1 + i < (g.neighborRange node).2 := by
  unfold Csr.degree at inRow
  omega

/-- An expansion in a shared pass: what it emits is older than every seed that reaches it,
unless something leaked before. -/
theorem Shared.expand {strategy : TemporalStrategy}
    (temporal : cfg.temporalStrategy = some strategy) (stamps : g.timestamps = some ts)
    {seeds : List (Nat × Time)} (h : Shared g ts seeds p) (sampleSize : Nat) (r : σ)
    {entry : Nat × Nat} (hentry : entry ∈ p.frontier) :
    Shared g ts seeds (Pass.expand ops g cfg true sampleSize (p, r) entry).1 := by
  have bound := h.bounds.bound (h.sound.frontier entry hentry)
  suffices run : Shared g ts seeds (Pass.expand ops g cfg true sampleSize (p, r) entry).1 ∧
      ∃ row, (Pass.expand ops g cfg true sampleSize (p, r) entry).1.edges = p.edges ++ row ∧
        ∀ e ∈ row, e.src = entry.1 from run.1
  refine expand_induct (Q := fun q => Shared g ts seeds q ∧ ∃ row, q.edges = p.edges ++ row ∧
    ∀ e ∈ row, e.src = entry.1) temporal stamps sampleSize r
    ⟨h, [], (List.append_nil _).symm, fun _ he => absurd he List.not_mem_nil⟩ ?_
  rintro q i dst ⟨shared, row, edges, out⟩ frontier inRow target less
  have own : ∀ dstLocal, Timely (stampOf ts) seeds q.edges
      ⟨entry.1, entry.2, dst, dstLocal, (g.neighborRange entry.1).1 + i⟩ := by
    intro dstLocal safe s hs reach
    rw [edges] at safe reach
    have early : Walks p.edges s.1 entry.1 := walks_off out reach
    rcases Relation.ReflTransGen.cases_tail early with here | ⟨_, walk, e, he, rfl, last⟩
    · exact lt_of_lt_of_le less (bound.1 s hs here.symm)
    · have sub : p.edges ⊆ p.edges ++ row := List.subset_append_left _ _
      exact lt_of_lt_of_le less (le_trans (bound.2 e he last)
        (safe s hs e (sub he) (Walks.mono walk sub)).le)
  refine ⟨shared.emit (shared.sound.frontier entry (frontier ▸ hentry)) (row_bounds inRow) target
    own, ?_⟩
  obtain ⟨-, -, kept⟩ | ⟨-, -, pushed⟩ := emit_effect g cfg entry.1 entry.2 q dst
    ((g.neighborRange entry.1).1 + i) (ts.getD ((g.neighborRange entry.1).1 + i) ⊤)
  · exact ⟨row, kept.trans edges, out⟩
  · refine ⟨row ++ [⟨entry.1, entry.2, dst, q.nodes.idxOf dst, (g.neighborRange entry.1).1 + i⟩],
      pushed.trans ?_, List.forall_mem_append.mpr ⟨out, fun e he => ?_⟩⟩
    · rw [edges, List.append_assoc]
    · rw [List.mem_singleton.mp he]

theorem Shared.beginHop {seeds : List (Nat × Time)} (h : Shared g ts seeds p) (hop : Nat) :
    Shared g ts seeds { p with hop := hop, next := [] } :=
  { h with
    sound := { h.sound with next := fun _ hx => absurd hx List.not_mem_nil }
    bounds := { h.bounds with } }

theorem Shared.extend {seeds : List (Nat × Time)} (h : Shared g ts seeds p) :
    Shared g ts seeds { p with frontier := p.frontier ++ p.next } :=
  { h with
    sound := { h.sound with frontier := List.forall_mem_append.mpr ⟨h.sound.frontier, h.sound.next⟩ }
    bounds := { h.bounds with } }

theorem Shared.swap {seeds : List (Nat × Time)} (h : Shared g ts seeds p) :
    Shared g ts seeds { p with frontier := p.next, next := p.frontier } :=
  { h with
    sound := { h.sound with frontier := h.sound.next, next := h.sound.frontier }
    bounds := { h.bounds with } }

theorem Shared.hops {strategy : TemporalStrategy}
    (temporal : cfg.temporalStrategy = some strategy) (stamps : g.timestamps = some ts)
    {seeds : List (Nat × Time)} (h : Shared g ts seeds p) (r : σ) :
    Shared g ts seeds (Pass.hops ops g cfg p r).2.1 := by
  have isTemporal : cfg.temporalStrategy.isSome = true := temporal ▸ rfl
  unfold Pass.hops
  rw [isTemporal]
  exact runHopsFrom_induct (fun p hop h => h.beginHop hop)
    (fun p r hop entry hentry h => h.expand temporal stamps _ r hentry) (fun p h => h.extend)
    (fun p h => h.swap) _ _ h r

/-- Registered seeds have bounds at or below all their times. -/
theorem shared_seeded {strategy : TemporalStrategy}
    (temporal : cfg.temporalStrategy = some strategy) (ts : List Time) (seeds : List (Nat × Time)) :
    Shared g ts seeds (seeded cfg seeds) := by
  have isTemporal : cfg.temporalStrategy.isSome = true := temporal ▸ rfl
  suffices run : TimesMeet (SharedBound ts seeds []) (seeded cfg seeds) ∧
      ∀ s ∈ seeds, s.1 ∈ (seeded cfg seeds).nodes by
    have start := seeded_seeded g cfg seeds
    refine ⟨start.start.sound, ?_, run.2, ?_⟩
    · rw [start.edges]
      exact run.1
    · rw [start.edges]
      exact everyStep_nil _
  induction seeds using List.reverseRecOn with
  | nil =>
      refine ⟨⟨isTemporal, rfl, fun l x b hx _ => ?_⟩, fun _ hs => absurd hs List.not_mem_nil⟩
      exact absurd (List.mem_of_getElem? hx) List.not_mem_nil
  | append_singleton seeds seed ih =>
      obtain ⟨meet, seedsIn⟩ := ih
      have nodup := (seeded_seeded g cfg seeds).start.sound.nodup
      have registered : seeded cfg (seeds ++ [seed]) = (seeded cfg seeds).registerSeed seed := by
        unfold seeded
        rw [List.foldl_append]
        rfl
      rw [registered]
      have next : TimesMeet (SharedBound ts (seeds ++ [seed]) [])
          ((seeded cfg seeds).register seed.1 seed.2) := by
        refine meet.register seed.1 seed.2 (fun x b _ ne old => ?_) (fun _ b old => ?_)
          (fun new => ?_) nodup
        · refine ⟨List.forall_mem_append.mpr ⟨old.1, fun s hs same => ?_⟩, old.2⟩
          rw [List.mem_singleton.mp hs] at same
          exact absurd same.symm ne
        · refine ⟨List.forall_mem_append.mpr ⟨fun s hs same =>
            le_trans (min_le_right _ _) (old.1 s hs same), fun s hs _ => ?_⟩,
            fun _ he => absurd he List.not_mem_nil⟩
          rw [List.mem_singleton.mp hs]
          exact min_le_left _ _
        · refine ⟨List.forall_mem_append.mpr ⟨fun s hs same => absurd (same ▸ seedsIn s hs) new,
            fun s hs _ => ?_⟩, fun _ he => absurd he List.not_mem_nil⟩
          rw [List.mem_singleton.mp hs]
      refine ⟨⟨next.track, next.length, next.meet⟩, ?_⟩
      change ∀ s ∈ seeds ++ [seed], s.1 ∈ ((seeded cfg seeds).register seed.1 seed.2).nodes
      rw [register_eq]
      refine List.forall_mem_append.mpr ⟨fun s hs => ?_, fun s hs => ?_⟩
      · dsimp only
        split
        · exact seedsIn s hs
        · exact List.mem_append_left _ (seedsIn s hs)
      · rw [List.mem_singleton.mp hs]
        dsimp only
        split
        · rename_i old
          exact old
        · exact List.mem_append_right _ List.mem_cons_self

/-- The state of one seed's block: every bound, and every edge, stays before the seed's time. -/
structure Alone (g : Csr Time) (ts : List Time) (t : Time) (p : Pass Time) : Prop where
  sound : Sound g p
  bounds : TimesMeet (fun _ b => b ≤ t) p
  edges : ∀ e ∈ p.edges, stampOf ts e < t

theorem Alone.expand {strategy : TemporalStrategy}
    (temporal : cfg.temporalStrategy = some strategy) (stamps : g.timestamps = some ts) {t : Time}
    (h : Alone g ts t p) (sampleSize : Nat) (r : σ) {entry : Nat × Nat}
    (hentry : entry ∈ p.frontier) :
    Alone g ts t (Pass.expand ops g cfg true sampleSize (p, r) entry).1 := by
  have bound := h.bounds.bound (h.sound.frontier entry hentry)
  refine expand_induct temporal stamps sampleSize r h ?_
  intro q i dst alone frontier inRow target less
  have early := lt_of_lt_of_le less bound
  have sound : Sound g (q.emit g cfg entry.1 entry.2 dst ((g.neighborRange entry.1).1 + i)
      (ts.getD ((g.neighborRange entry.1).1 + i) ⊤)) :=
    alone.sound.emit (alone.sound.frontier entry (frontier ▸ hentry)) (row_bounds inRow) target _
  obtain ⟨-, -, -, track⟩ := emit_frame g cfg entry.1 entry.2 q dst
    ((g.neighborRange entry.1).1 + i) (ts.getD ((g.neighborRange entry.1).1 + i) ⊤)
  have registered : TimesMeet (fun _ b => b ≤ t)
      (q.register dst (ts.getD ((g.neighborRange entry.1).1 + i) ⊤)) :=
    alone.bounds.register dst _ (fun _ _ _ _ old => old)
      (fun _ _ old => le_trans (min_le_right _ _) old) (fun _ => early.le) alone.sound.nodup
  obtain ⟨nodes, times, edges⟩ | ⟨nodes, times, edges⟩ := emit_effect g cfg entry.1 entry.2 q dst
    ((g.neighborRange entry.1).1 + i) (ts.getD ((g.neighborRange entry.1).1 + i) ⊤)
  · refine ⟨sound, ⟨track.trans alone.bounds.track, ?_, ?_⟩, ?_⟩
    · rw [nodes, times, alone.bounds.length]
    · rw [nodes, times]
      exact alone.bounds.meet
    · rw [edges]
      exact alone.edges
  · refine ⟨sound, ⟨track.trans alone.bounds.track, ?_, ?_⟩, ?_⟩
    · rw [nodes, times]
      exact registered.length
    · rw [nodes, times]
      exact registered.meet
    · rw [edges]
      refine List.forall_mem_append.mpr ⟨alone.edges, fun e he => ?_⟩
      rw [List.mem_singleton.mp he]
      exact early

theorem Alone.hops {strategy : TemporalStrategy}
    (temporal : cfg.temporalStrategy = some strategy) (stamps : g.timestamps = some ts) {t : Time}
    (h : Alone g ts t p) (r : σ) : Alone g ts t (Pass.hops ops g cfg p r).2.1 := by
  have isTemporal : cfg.temporalStrategy.isSome = true := temporal ▸ rfl
  unfold Pass.hops
  rw [isTemporal]
  refine runHopsFrom_induct (fun p hop h => ?_)
    (fun p r hop entry hentry h => h.expand temporal stamps _ r hentry) (fun p h => ?_)
    (fun p h => ?_) _ _ h r
  · exact { h with sound := { h.sound with next := fun x hx => absurd hx List.not_mem_nil }
                   bounds := { h.bounds with } }
  · exact { h with
      sound := { h.sound with frontier := List.forall_mem_append.mpr ⟨h.sound.frontier, h.sound.next⟩ }
      bounds := { h.bounds with } }
  · exact { h with
      sound := { h.sound with frontier := h.sound.next, next := h.sound.frontier }
      bounds := { h.bounds with } }

theorem alone_rooted {strategy : TemporalStrategy}
    (temporal : cfg.temporalStrategy = some strategy) (ts : List Time) (seed : Nat × Time) :
    Alone g ts seed.2 (rooted cfg seed) := by
  have isTemporal : cfg.temporalStrategy.isSome = true := temporal ▸ rfl
  refine ⟨(rooted_seeded seed).start.sound, ?_, fun _ he => absurd he List.not_mem_nil⟩
  have empty : TimesMeet (fun _ b => b ≤ seed.2) (start cfg.temporalStrategy.isSome : Pass Time) :=
    ⟨isTemporal, rfl, fun l x b hx _ => absurd (List.mem_of_getElem? hx) List.not_mem_nil⟩
  have registered : TimesMeet (fun _ b => b ≤ seed.2)
      ((start cfg.temporalStrategy.isSome : Pass Time).register seed.1 seed.2) :=
    empty.register seed.1 seed.2 (fun _ _ _ _ old => old)
      (fun _ _ old => le_trans (min_le_right _ _) old) (fun _ => le_refl _) List.nodup_nil
  exact { registered with }

end Bounds

theorem seedTimes_some {Time : Type} [Top Time] {seeds : List Nat} {times : List Time}
    (length : times.length = seeds.length) :
    NeighborSampler.seedTimes seeds (some times) = seeds.zip times := by
  refine List.ext_getElem (by simp [NeighborSampler.seedTimes, length]) fun i hi hi' => ?_
  have inTimes : i < times.length := by
    rw [List.length_zip] at hi'
    omega
  simp [NeighborSampler.seedTimes, List.getElem?_eq_getElem inTimes]

section Emitted

variable {σ : Type} [Rng σ] {Time : Type} [LinearOrder Time] [OrderTop Time]
variable (ops : SliceOps) (g : Csr Time) (cfg : SamplingConfig)

/-- The edges a shared pass emits, in order. -/
def emitted (seeds : List (Nat × Time)) (r : σ) : List SampledEdge :=
  (hops ops g cfg (seeded cfg seeds) r).2.1.edges

/-- The edges each seed's block emits. -/
def emittedBlocks : List (Nat × Time) → σ → List (List SampledEdge)
  | [], _ => []
  | seed :: seeds, r =>
      (hops ops g cfg (rooted cfg seed) r).2.1.edges ::
        emittedBlocks seeds (hops ops g cfg (rooted cfg seed) r).2.2

variable {ops g cfg}

variable (ops g) in
/-- A directional subgraph records the emitted edges. -/
theorem inner_edges (directional : cfg.subgraphType = .directional) (seeds : List Nat)
    (inputTimes : Option (List Time)) (r : σ) :
    let sub := (inner ops g cfg seeds inputTimes r).1
    let edges := emitted ops g cfg (NeighborSampler.seedTimes seeds inputTimes) r
    sub.edgeSrc = edges.map SampledEdge.src ∧ sub.edgeDst = edges.map SampledEdge.dst ∧
      sub.edgeIds = if cfg.trackEdgeIds then edges.map SampledEdge.eid else [] := by
  unfold inner emitted
  dsimp only
  rw [applySubgraphType_directional directional]
  exact ⟨rfl, rfl, rfl⟩

variable (ops g) in
theorem blocks_edges (directional : cfg.subgraphType = .directional)
    (entries : List ((Nat × Time) × Nat)) (out : SampledSubgraph) (r : σ) :
    let sub := (entries.foldl (block ops g cfg) (out, r)).1
    let edges := (emittedBlocks ops g cfg (entries.map Prod.fst) r).flatten
    sub.edgeSrc = out.edgeSrc ++ edges.map SampledEdge.src ∧
      sub.edgeDst = out.edgeDst ++ edges.map SampledEdge.dst ∧
      sub.edgeIds = out.edgeIds ++ if cfg.trackEdgeIds then edges.map SampledEdge.eid else [] := by
  induction entries generalizing out r with
  | nil => simp [emittedBlocks]
  | cons entry entries ih =>
      obtain ⟨src, dst, ids⟩ := ih (block ops g cfg (out, r) entry).1
        (block ops g cfg (out, r) entry).2
      have edges : ((hops ops g cfg (rooted cfg entry.1) r).2.1.applySubgraphType g cfg).edges =
          (hops ops g cfg (rooted cfg entry.1) r).2.1.edges := by
        rw [applySubgraphType_directional directional]
      refine ⟨src.trans ?_, dst.trans ?_, ids.trans ?_⟩
      · rw [List.map_cons, emittedBlocks, List.flatten_cons, List.map_append, ← List.append_assoc]
        exact congrArg (fun l => out.edgeSrc ++ List.map SampledEdge.src l ++ _) edges
      · rw [List.map_cons, emittedBlocks, List.flatten_cons, List.map_append, ← List.append_assoc]
        exact congrArg (fun l => out.edgeDst ++ List.map SampledEdge.dst l ++ _) edges
      · rw [List.map_cons, emittedBlocks, List.flatten_cons]
        have own : (block ops g cfg (out, r) entry).1.edgeIds = out.edgeIds ++
            if cfg.trackEdgeIds then
              (hops ops g cfg (rooted cfg entry.1) r).2.1.edges.map SampledEdge.eid else [] := by
          rw [← edges]
          rfl
        rw [own]
        split
        · rw [List.map_append, List.append_assoc]
          rfl
        · simp

theorem emittedBlocks_noLeak {strategy : TemporalStrategy}
    (temporal : cfg.temporalStrategy = some strategy) {ts : List Time}
    (stamps : g.timestamps = some ts) (seeds : List (Nat × Time)) (r : σ) :
    List.Forall₂ (fun s edges => NoLeak (stampOf ts) [s] edges) seeds
      (emittedBlocks ops g cfg seeds r) := by
  induction seeds generalizing r with
  | nil => exact .nil
  | cons seed seeds ih =>
      have alone : Alone g ts seed.2 (hops ops g cfg (rooted cfg seed) r).2.1 :=
        (alone_rooted temporal ts seed).hops temporal stamps r
      refine .cons (fun s hs e he _ => ?_) (ih _)
      rw [List.mem_singleton.mp hs]
      exact alone.edges e he

end Emitted

end Pass

namespace NeighborSampler

variable {σ : Type} [Rng σ] {Time : Type} [LinearOrder Time] [OrderTop Time]
theorem checkSample_times {Time : Type} {g : Csr Time} {cfg : SamplingConfig} {seeds : Seeds}
    {times : List Time} (checked : checkSample g cfg seeds (some times) = none) :
    times.length = seeds.ids.length ∧ (∃ strategy, cfg.temporalStrategy = some strategy) ∧
      ∃ ts, g.timestamps = some ts := by
  unfold checkSample at checked
  split at checked
  · cases checked
  · dsimp only at checked
    split at checked
    · cases checked
    · rename_i length
      split at checked
      · cases checked
      · rename_i strategy
        split at checked
        · cases checked
        · rename_i stamps
          rw [Bool.not_eq_true, Option.isNone_eq_false_iff] at strategy stamps
          exact ⟨not_not.mp length, Option.isSome_iff_exists.mp strategy,
            Option.isSome_iff_exists.mp stamps⟩

variable (ops : SliceOps) (g : Csr Time) (cfg : SamplingConfig)

/-- Node 1 reaches node 0 at time 5, and node 0 reaches node 2 at time 40. -/
def lateGraph : Csr (WithTop Nat) where
  numNodes := 3
  numDstNodes := 3
  offsets := [0, 1, 2, 2]
  edges := [2, 0]
  weights := none
  timestamps := some [(40 : Nat), (5 : Nat)]
  numNodes_le := three_le_maxNodes
  numDstNodes_le := three_le_maxNodes
  offsets_length := rfl
  first_offset := rfl
  last_offset := rfl
  weights_length := nofun
  timestamps_length := by simp

def lateConfig : SamplingConfig :=
  { (default : SamplingConfig) with fanout := [1], temporalStrategy := some .uniform }

/-- Seeds 0 and 1, at times 100 and 10. -/
def lateSeeds : List (Nat × WithTop Nat) := [(0, (100 : Nat)), (1, (10 : Nat))]

def lateSample : SampledSubgraph where
  nodes := [0, 1, 2]
  edgeSrc := [0, 1]
  edgeDst := [2, 0]
  edgeIds := [0, 1]
  seeds := [0, 1]
  numSampledNodes := [2, 1]
  numSampledEdges := [2]
  srcLocal := [0, 1]
  dstLocal := [2, 0]
  seedLocals := [0, 1]
  batch := none

theorem late_sampled :
    ((fresh true 3 0 : NeighborSampler WyRand (WithTop Nat)).sample .sorting lateGraph lateConfig
      ⟨[0, 1], 3, by decide⟩ (some (lateSeeds.map Prod.snd))).1 = .ok lateSample := by
  decide +kernel

theorem late_emitted :
    Pass.emitted .sorting lateGraph lateConfig lateSeeds (Rng.new 0 : WyRand) =
      [⟨0, 0, 2, 2, 0⟩, ⟨1, 1, 0, 0, 1⟩] := by
  decide +kernel

end NeighborSampler

end AetherGraph
