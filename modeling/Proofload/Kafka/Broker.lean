import Proofload.Kafka.Record
import Proofload.Kafka.AnalyzeLog
import Proofload.Lib.Run

/-!
# Connections producing into a faultless topic

`conns` connections of one worker, each with its own generator, run produce and consume calls
against a topic. A call draws the next operation and sends its records, the broker stores the pending
records one at a time in any order and any interleaving with the other connections, and the call is
acknowledged when all of them are stored. Nothing is lost or stored twice; a record goes to the
partition of its key and takes that partition's next offset.

* `placed` : the stored log is a `Topic`;
* `drawn` : what every connection has drawn is numbered per key and stays in the key space;
* `shipped` : per connection and record key, what is stored and in flight is what was drawn.
-/

namespace Proofload.Kafka
open Lib WorkloadGen

set_option autoImplicit false

/-- One worker's run: its workload factory, the number of connections, the resolved topic and batch
size, and the partitioner. -/
structure Setup where
  f : Factory
  conns : Nat
  topic : String
  batchSize : I64
  partitionOf : Int → Int

/-- A stored record, with the connection and the operation it comes from. -/
structure Stored where
  conn : Nat
  op : Operation
  record : Record
  partition : Int
  offset : Int
deriving DecidableEq

/-- What the verifier's drain keeps of a stored record. -/
def Stored.logRecord (e : Stored) : LogRecord := ⟨e.partition, e.offset, e.record.key, e.record.seq⟩

/-- An `Execute` in progress: its operation and the records that are not stored yet. -/
structure Call where
  op : Operation
  pending : List Record
deriving DecidableEq

structure State (R : RandV2) where
  gens : Nat → Gen R
  calls : Nat → Option Call
  log : List Stored
  emitted : Nat → List Operation

inductive Action where
  | call (c : Nat)
  | store (c i : Nat)
  | ack (c : Nat)

/-- The next free offset of a partition. -/
def nextOffset (log : List Stored) (p : Int) : Int := (log.countP fun e => e.partition = p : Nat)

def init (R : RandV2) (cfg : Setup) : State R :=
  { gens := fun c => cfg.f.generator R c, calls := fun _ => none, log := [], emitted := fun _ => [] }

/-- One step of the connections and the broker. -/
def step {R : RandV2} (cfg : Setup) (s : State R) : Action → Option (State R)
  | .call c =>
      if c < cfg.conns ∧ s.calls c = none then
        let (op, g) := (s.gens c).next cfg.f
        some { s with
          gens := Function.update s.gens c g
          calls := Function.update s.calls c (some ⟨op, execute cfg.topic cfg.batchSize op⟩)
          emitted := Function.update s.emitted c (s.emitted c ++ [op]) }
      else none
  | .store c i => do
      let call ← s.calls c
      let r ← call.pending[i]?
      let p := cfg.partitionOf r.key
      some { s with
        calls := Function.update s.calls c (some { call with pending := call.pending.eraseIdx i })
        log := s.log ++ [⟨c, call.op, r, p, nextOffset s.log p⟩] }
  | .ack c => do
      let call ← s.calls c
      if call.pending = [] then some { s with calls := Function.update s.calls c none } else none

/-- No call is in progress: everything drawn has been acknowledged. -/
def State.Quiet {R : RandV2} (cfg : Setup) (s : State R) : Prop := ∀ c < cfg.conns, s.calls c = none

instance {R : RandV2} (cfg : Setup) (s : State R) : Decidable (s.Quiet cfg) :=
  inferInstanceAs (Decidable (∀ c < cfg.conns, s.calls c = none))

/-- The records a complete drain of the topic returns, in append order. -/
def State.topic {R : RandV2} (s : State R) : List LogRecord := s.log.map Stored.logRecord

variable {R : RandV2} {cfg : Setup} {s t : State R}

/-! ## What a step does -/

theorem step_call {c : Nat} (h : step cfg s (.call c) = some t) : c < cfg.conns ∧ s.calls c = none ∧
    t = { s with
      gens := Function.update s.gens c ((s.gens c).next cfg.f).2
      calls := Function.update s.calls c
        (some ⟨((s.gens c).next cfg.f).1, execute cfg.topic cfg.batchSize ((s.gens c).next cfg.f).1⟩)
      emitted := Function.update s.emitted c (s.emitted c ++ [((s.gens c).next cfg.f).1]) } := by
  simp only [step] at h
  split_ifs at h with hidle
  exact ⟨hidle.1, hidle.2, (Option.some.inj h).symm⟩

theorem step_store {c i : Nat} (h : step cfg s (.store c i) = some t) : ∃ call r, s.calls c = some call ∧
    call.pending[i]? = some r ∧
    t = { s with
      calls := Function.update s.calls c (some { call with pending := call.pending.eraseIdx i })
      log := s.log ++ [⟨c, call.op, r, cfg.partitionOf r.key, nextOffset s.log (cfg.partitionOf r.key)⟩] } := by
  simp only [step, bind, Option.bind_eq_some_iff] at h
  obtain ⟨call, hcall, r, hr, h⟩ := h
  exact ⟨call, r, hcall, hr, (Option.some.inj h).symm⟩

theorem step_ack {c : Nat} (h : step cfg s (.ack c) = some t) : ∃ call, s.calls c = some call ∧
    call.pending = [] ∧ t = { s with calls := Function.update s.calls c none } := by
  simp only [step, bind, Option.bind_eq_some_iff] at h
  obtain ⟨call, hcall, h⟩ := h
  split_ifs at h with hpending
  exact ⟨call, hcall, hpending, (Option.some.inj h).symm⟩

/-! ## Placement -/

/-- Where the stored records are, and which operation sent them. -/
structure Placed (cfg : Setup) (s : State R) : Prop where
  routed : ∀ e ∈ s.log, e.partition = cfg.partitionOf e.record.key
  below : ∀ e ∈ s.log, e.offset < nextOffset s.log e.partition
  ordered : s.log.Pairwise fun a b => a.partition = b.partition → a.offset < b.offset
  sent : ∀ e ∈ s.log, e.conn < cfg.conns ∧ e.record ∈ execute cfg.topic cfg.batchSize e.op
  pending : ∀ c call, s.calls c = some call →
    c < cfg.conns ∧ ∀ r ∈ call.pending, r ∈ execute cfg.topic cfg.batchSize call.op

theorem nextOffset_concat (log : List Stored) (e : Stored) (p : Int) :
    nextOffset (log ++ [e]) p = nextOffset log p + (if e.partition = p then 1 else 0) := by
  unfold nextOffset
  rw [List.countP_append]
  by_cases h : e.partition = p <;> simp [h]

theorem Placed.store (h : Placed cfg s) {c i : Nat} (ht : step cfg s (.store c i) = some t) : Placed cfg t := by
  obtain ⟨call, r, hcall, hr, rfl⟩ := step_store ht
  obtain ⟨hconn, hpend⟩ := h.pending c call hcall
  have hmem : r ∈ call.pending := List.mem_of_getElem? hr
  refine ⟨fun e he => ?_, fun e he => ?_, ?_, fun e he => ?_, fun d call' hd => ?_⟩
  · rcases List.mem_append.mp he with he | he
    · exact h.routed e he
    · rw [List.mem_singleton.mp he]
  · rw [nextOffset_concat]
    rcases List.mem_append.mp he with he | he
    · have := h.below e he
      split <;> omega
    · rw [List.mem_singleton.mp he, if_pos rfl]
      exact Int.lt_succ _
  · refine List.pairwise_append.mpr ⟨h.ordered, List.pairwise_singleton _ _, fun a ha b hb hpart => ?_⟩
    rw [List.mem_singleton.mp hb] at hpart ⊢
    dsimp only at hpart ⊢
    rw [← hpart]
    exact h.below a ha
  · rcases List.mem_append.mp he with he | he
    · exact h.sent e he
    · rw [List.mem_singleton.mp he]
      exact ⟨hconn, hpend r hmem⟩
  · dsimp only at hd
    by_cases hdc : d = c
    · subst hdc
      rw [Function.update_self] at hd
      obtain rfl := Option.some.inj hd
      exact ⟨hconn, fun x hx => hpend x (List.mem_of_mem_eraseIdx hx)⟩
    · rw [Function.update_of_ne hdc] at hd
      exact h.pending d call' hd

theorem Placed.step (h : Placed cfg s) {a : Action} (ht : step cfg s a = some t) : Placed cfg t := by
  cases a with
  | store c i => exact h.store ht
  | call c =>
      obtain ⟨hconn, -, rfl⟩ := step_call ht
      refine ⟨h.routed, h.below, h.ordered, h.sent, fun d call hd => ?_⟩
      dsimp only at hd
      by_cases hdc : d = c
      · subst hdc
        rw [Function.update_self] at hd
        obtain rfl := Option.some.inj hd
        exact ⟨hconn, fun r hr => hr⟩
      · rw [Function.update_of_ne hdc] at hd
        exact h.pending d call hd
  | ack c =>
      obtain ⟨call, hcall, -, rfl⟩ := step_ack ht
      refine ⟨h.routed, h.below, h.ordered, h.sent, fun d call hd => ?_⟩
      dsimp only at hd
      by_cases hdc : d = c
      · subst hdc
        rw [Function.update_self] at hd
        cases hd
      · rw [Function.update_of_ne hdc] at hd
        exact h.pending d call hd

theorem placed (h : Reachable (step cfg) (init R cfg) s) : Placed cfg s := by
  refine h.invariant ?_ fun s a t hs ht => hs.step ht
  exact ⟨by simp [init], by simp [init], List.Pairwise.nil, by simp [init], fun c call hc => by cases hc⟩

theorem Placed.idle (h : Placed cfg s) (hquiet : s.Quiet cfg) (c : Nat) : s.calls c = none := by
  cases hc : s.calls c with
  | none => rfl
  | some call =>
      rw [hquiet c (h.pending c call hc).1] at hc
      cases hc

theorem Placed.topic (h : Placed cfg s) : Topic s.topic := by
  refine ⟨List.pairwise_map.mpr h.ordered, fun a ha b hb hkey => ?_⟩
  obtain ⟨e, he, rfl⟩ := List.mem_map.mp ha
  obtain ⟨e', he', rfl⟩ := List.mem_map.mp hb
  change e.partition = e'.partition
  rw [h.routed e he, h.routed e' he']
  exact congrArg cfg.partitionOf hkey

/-! ## Draws -/

/-- What the connections have drawn: numbered per key, with listed labels and keys of the space. -/
structure Drawn (cfg : Setup) (s : State R) : Prop where
  counted : ∀ c, Counted (s.gens c) (s.emitted c)
  keys : ∀ c, (s.gens c).keys.Ok cfg.f.localSpace
  listed : ∀ c, ∀ op ∈ s.emitted c, op.type ∈ cfg.f.w.operations.map (·.type) ∧
    0 ≤ op.key ∧ op.key < cfg.f.w.keySpace.val
  silent : ∀ c, s.emitted c ≠ [] → c < cfg.conns

theorem Drawn.step (hf : cfg.f.Accepted) (h : Drawn cfg s) {a : Action} (ht : step cfg s a = some t) :
    Drawn cfg t := by
  cases a with
  | store c i =>
      obtain ⟨call, r, -, -, rfl⟩ := step_store ht
      exact ⟨h.counted, h.keys, h.listed, h.silent⟩
  | ack c =>
      obtain ⟨call, -, -, rfl⟩ := step_ack ht
      exact ⟨h.counted, h.keys, h.listed, h.silent⟩
  | call c =>
      obtain ⟨hconn, -, rfl⟩ := step_call ht
      obtain ⟨hrange, hok⟩ := next_key_range hf (h.keys c)
      refine ⟨fun d => ?_, fun d => ?_, fun d => ?_, fun d => ?_⟩ <;> dsimp only <;> by_cases hdc : d = c
      · subst hdc
        rw [Function.update_self, Function.update_self]
        exact (h.counted d).next cfg.f
      · rw [Function.update_of_ne hdc, Function.update_of_ne hdc]
        exact h.counted d
      · subst hdc
        rwa [Function.update_self]
      · rw [Function.update_of_ne hdc]
        exact h.keys d
      · subst hdc
        rw [Function.update_self]
        intro op hop
        rcases List.mem_append.mp hop with hop | hop
        · exact h.listed d op hop
        · rw [List.mem_singleton.mp hop]
          exact ⟨next_type_mem hf _, hrange⟩
      · rw [Function.update_of_ne hdc]
        exact h.listed d
      · exact fun _ => hdc ▸ hconn
      · rw [Function.update_of_ne hdc]
        exact h.silent d

theorem drawn (hf : cfg.f.Accepted) (h : Reachable (step cfg) (init R cfg) s) : Drawn cfg s := by
  refine h.invariant ?_ fun s a t hs ht => hs.step hf ht
  exact ⟨fun c => counted_generator R cfg.f c, fun c => newKeyGen_ok _ _ hf.local_pos,
    fun c op hop => absurd hop List.not_mem_nil, fun c hc => absurd rfl hc⟩

/-! ## Shipping -/

/-- The record keys an operation writes to. -/
def Setup.keysOf (cfg : Setup) (op : Operation) : List Int := (execute cfg.topic cfg.batchSize op).map (·.key)

/-- The operations of connection `c` behind the stored records with key `K`, in append order. -/
def State.writes (s : State R) (c : Nat) (K : Int) : List Operation :=
  (s.log.filter fun e => e.conn = c ∧ e.record.key = K).map (·.op)

/-- The operation in progress, once for every record with key `K` it still has to store. -/
def State.inFlight (s : State R) (c : Nat) (K : Int) : List Operation :=
  match s.calls c with
  | none => []
  | some call => List.replicate (call.pending.countP fun r => r.key = K) call.op

/-- Stored and in flight together are what the connection has drawn for the record key. -/
def Shipped (cfg : Setup) (s : State R) : Prop :=
  ∀ c K, s.writes c K ++ s.inFlight c K = (s.emitted c).filter fun op => K ∈ cfg.keysOf op

theorem keysOf_nodup (cfg : Setup) (op : Operation) : (cfg.keysOf op).Nodup := by
  unfold Setup.keysOf
  by_cases h : role op.type = .produce
  · rw [execute_map_key h]
    exact recordKeys_nodup _ _
  · rw [execute_of_not_produce h]
    exact List.nodup_nil

theorem countP_execute (cfg : Setup) (op : Operation) (K : Int) :
    (execute cfg.topic cfg.batchSize op).countP (fun r => r.key = K) = if K ∈ cfg.keysOf op then 1 else 0 := by
  rw [← (keysOf_nodup cfg op).count, Setup.keysOf, List.count, List.countP_map]
  rfl

theorem Shipped.call (h : Shipped cfg s) {c : Nat} (ht : step cfg s (.call c) = some t) : Shipped cfg t := by
  obtain ⟨-, hidle, rfl⟩ := step_call ht
  intro d K
  have hbefore := h d K
  unfold State.writes State.inFlight at *
  dsimp only
  by_cases hdc : d = c
  · subst hdc
    rw [hidle, List.append_nil] at hbefore
    rw [Function.update_self, Function.update_self, hbefore, List.filter_append]
    dsimp only
    rw [countP_execute]
    by_cases hK : K ∈ cfg.keysOf ((s.gens d).next cfg.f).1 <;> simp [hK]
  · rw [Function.update_of_ne hdc, Function.update_of_ne hdc]
    exact hbefore

theorem Shipped.store (h : Shipped cfg s) {c i : Nat} (ht : step cfg s (.store c i) = some t) : Shipped cfg t := by
  obtain ⟨call, r, hcall, hr, rfl⟩ := step_store ht
  intro d K
  have hbefore := h d K
  unfold State.writes State.inFlight at *
  dsimp only
  rw [List.filter_append, List.map_append]
  by_cases hdc : d = c
  · subst hdc
    rw [Function.update_self, ← hbefore, hcall]
    dsimp only
    obtain ⟨hi, hget⟩ := List.getElem?_eq_some_iff.mp hr
    have hcount := (List.getElem_cons_eraseIdx_perm hi).countP_eq fun r => decide (r.key = K)
    rw [← hcount, List.countP_cons, hget, List.append_assoc]
    congr 1
    by_cases hK : r.key = K
    · simp [hK, List.replicate_succ]
    · simp [hK]
  · rw [Function.update_of_ne hdc, ← hbefore]
    have hcd : ¬c = d := fun h => hdc h.symm
    simp [hcd]

theorem Shipped.ack (h : Shipped cfg s) {c : Nat} (ht : step cfg s (.ack c) = some t) : Shipped cfg t := by
  obtain ⟨call, hcall, hpending, rfl⟩ := step_ack ht
  intro d K
  have hbefore := h d K
  unfold State.writes State.inFlight at *
  dsimp only
  by_cases hdc : d = c
  · subst hdc
    rw [Function.update_self, ← hbefore, hcall]
    simp [hpending]
  · rw [Function.update_of_ne hdc]
    exact hbefore

theorem shipped (h : Reachable (step cfg) (init R cfg) s) : Shipped cfg s := by
  refine h.invariant (fun c K => rfl) fun s a t hs ht => ?_
  cases a with
  | call c => exact hs.call ht
  | store c i => exact hs.store ht
  | ack c => exact hs.ack ht

/-- **In a quiet state the topic holds exactly what was drawn**, per connection and record key and in
the order of the draws. -/
theorem Shipped.writes_eq (h : Shipped cfg s) (hp : Placed cfg s) (hquiet : s.Quiet cfg) (c : Nat) (K : Int) :
    s.writes c K = (s.emitted c).filter fun op => K ∈ cfg.keysOf op := by
  rw [← h c K, State.inFlight, hp.idle hquiet c, List.append_nil]

theorem stream_topic (h : Placed cfg s) (K : Int) :
    stream K s.topic = (s.log.filter fun e => e.record.key = K).map fun e => e.op.seq := by
  unfold stream State.topic
  rw [List.filter_map, List.map_map]
  refine List.map_congr_left fun e he => ?_
  exact execute_seq (h.sent e (List.mem_filter.mp he).1).2

end Proofload.Kafka
