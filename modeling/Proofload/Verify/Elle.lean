import Proofload.Verify.RegisterRun
import Proofload.Verify.HistoryFile

/-!
# The Elle history (`core/verify/elle.go`, `historyio.go`)

`WriteElleEDN` writes two lines for every event of a history, in file order: its invocation and right behind it its
completion. To a checker that reads real time off the lines, an event whose completion stands before the invocation of
another one ended before that one began.

* `elleLines_getElem?` : which line belongs to which event;
* `elle_order_iff` : when the lines assert no order that the recorded intervals do not have;
* `sequential` : the recorded events of one process never overlap, in every run;
* `tokens_agree_iff` : when an appended value and the same value in an observed list are written as the same token.
-/

namespace Proofload.Verify
open Lib Runner

set_option autoImplicit false

/-! ## The lines -/

def ednList (list : List Int) : String :=
  if list.length = 0 then "[]" else "[" ++ " ".intercalate (list.map toString) ++ "]"

/-- The micro-operations of an event; a read carries its value on completion only. -/
def mops (e : Event) (complete : Bool) : String :=
  match e.f with
  | .append =>
      let v := s!"[:append {e.key} {e.wVal.toNat}]"
      if complete ∧ 0 < e.rList.length then s!"[{v} [:r {e.key} {ednList e.rList}]]" else "[" ++ v ++ "]"
  | .read => if complete then s!"[[:r {e.key} {ednList e.rList}]]" else s!"[[:r {e.key} nil]]"
  | .write => "[]"

/-- A line of the file. `event` and `complete` are ghosts: the number of the event in the history, and whether the line
is its completion. -/
structure ElleLine where
  event : Nat
  complete : Bool
  text : String
deriving DecidableEq

def invokeLine (i : Nat) (e : Event) : ElleLine :=
  { event := i, complete := false
    text := "\x7b:type :invoke, :process " ++ toString e.process ++ ", :value " ++ mops e false ++ "\x7d\n" }

def completionLine (i : Nat) (e : Event) : ElleLine :=
  { event := i, complete := true
    text := "\x7b:type " ++ (if e.ok then ":ok" else ":fail") ++ ", :process " ++ toString e.process ++ ", :value " ++
      mops e true ++ "\x7d\n" }

/-- The loop of `WriteElleEDN` over the events from the `i`-th on. -/
def elleLines : Nat → List Event → List ElleLine
  | _, [] => []
  | i, e :: events => invokeLine i e :: completionLine i e :: elleLines (i + 1) events

def writeElleEDN (h : History) : List ElleLine := elleLines 0 h.events

/-- No line asserts an order between two events that their intervals do not have: if the completion of `a` stands
before the invocation of `b`, then `a` completed by the time `b` was invoked. -/
def NoFalseOrder (h : History) : Prop :=
  ∀ (p q : Nat) (lineA lineB : ElleLine) (a b : Event), p < q → (writeElleEDN h)[p]? = some lineA →
    (writeElleEDN h)[q]? = some lineB → lineA.complete = true → lineB.complete = false →
    h.events[lineA.event]? = some a → h.events[lineB.event]? = some b → a.complete ≤ b.invoke

theorem elleLines_getElem? (i : Nat) (events : List Event) (p : Nat) :
    (elleLines i events)[p]? =
      events[p / 2]?.map fun e => if p % 2 = 0 then invokeLine (i + p / 2) e else completionLine (i + p / 2) e := by
  induction events generalizing i p with
  | nil => simp [elleLines]
  | cons e events ih =>
      match p with
      | 0 => rfl
      | 1 => rfl
      | p + 2 =>
          have hhalf : (p + 2) / 2 = p / 2 + 1 := by omega
          have hparity : (p + 2) % 2 = p % 2 := by omega
          rw [elleLines, List.getElem?_cons_succ, List.getElem?_cons_succ, ih, hhalf, hparity, List.getElem?_cons_succ,
            show i + 1 + p / 2 = i + (p / 2 + 1) by omega]

theorem noFalseOrder_of_pairwise {h : History} (hpair : h.events.Pairwise fun a b => a.complete ≤ b.invoke) :
    NoFalseOrder h := by
  intro p q lineA lineB a b hpq hp hq hcomplete hinvoke ha hb
  rw [writeElleEDN, elleLines_getElem?, Option.map_eq_some_iff] at hp hq
  obtain ⟨ea, hea, rfl⟩ := hp
  obtain ⟨eb, heb, rfl⟩ := hq
  have hodd : p % 2 = 1 := by
    by_contra hp
    rw [if_pos (by omega)] at hcomplete
    cases hcomplete
  have heven : q % 2 = 0 := by
    by_contra hq
    rw [if_neg hq] at hinvoke
    cases hinvoke
  rw [if_neg (by omega), show (completionLine (0 + p / 2) ea).event = p / 2 by simp [completionLine]] at ha
  rw [if_pos heven, show (invokeLine (0 + q / 2) eb).event = q / 2 by simp [invokeLine]] at hb
  obtain ⟨hi, rfl⟩ := List.getElem?_eq_some_iff.mp ha
  obtain ⟨hj, rfl⟩ := List.getElem?_eq_some_iff.mp hb
  exact List.pairwise_iff_getElem.mp hpair _ _ hi hj (by omega)

/-- **Real time in the Elle history.** The lines assert no false order exactly if, in file order, every event has
completed by the time each later one was invoked. -/
theorem elle_order_iff (h : History) : NoFalseOrder h ↔ h.events.Pairwise fun a b => a.complete ≤ b.invoke := by
  refine ⟨fun horder => List.pairwise_iff_getElem.mpr fun i j hi hj hij => ?_, noFalseOrder_of_pairwise⟩
  refine horder (2 * i + 1) (2 * j) (completionLine i h.events[i]) (invokeLine j h.events[j]) _ _ (by omega) ?_ ?_ rfl
    rfl
    (List.getElem?_eq_getElem hi) (List.getElem?_eq_getElem hj)
  · rw [writeElleEDN, elleLines_getElem?, show (2 * i + 1) / 2 = i by omega, show (2 * i + 1) % 2 = 1 by omega,
      List.getElem?_eq_getElem hi]
    simp
  · rw [writeElleEDN, elleLines_getElem?, show 2 * j / 2 = j by omega, show 2 * j % 2 = 0 by omega,
      List.getElem?_eq_getElem hj]
    simp

/-! ## Recorded runs -/

/-- When the operation in flight was dispatched. -/
def dispatch? : Phase → Option Int
  | .called _ dispatch | .executed _ dispatch _ _ | .returned _ dispatch _ _ _ => some dispatch
  | .idle | .ready | .stopped => none

/-- A worker handles its operations one after the other. -/
structure Sequential {T : Type} (o : Options) (s : State T) : Prop where
  order : s.observed.Pairwise fun a b => a.shard = b.shard → a.complete ≤ b.invoke
  past : ∀ ob ∈ s.observed, ob.complete ≤ s.now
  shards : ∀ ob ∈ s.observed, ob.shard < o.connections
  inFlight : ∀ c d, dispatch? (s.phase c) = some d → ∀ ob ∈ s.observed, ob.shard = c → ob.complete ≤ d
  returned : ∀ c op d res i done, s.phase c = .returned op d res i done → done ≤ s.now
  active : ∀ c, s.phase c ≠ .idle → s.phase c ≠ .stopped → c < o.connections

section Sequential
variable {T : Type} {d : Deps T} {o : Options} {s t : State T}

/-- A worker moves on: with the dispatch it had or one of this instant, and with a return of this instant. -/
theorem Sequential.move (h : Sequential o s) {c : Nat} {p : Phase} (hobserved : t.observed = s.observed)
    (hnow : t.now = s.now) (hphase : t.phase = Function.update s.phase c p)
    (hc : p ≠ .idle → p ≠ .stopped → c < o.connections)
    (hdispatch : ∀ x, dispatch? p = some x → dispatch? (s.phase c) = some x ∨ x = s.now)
    (hreturned : ∀ op x res i done, p = .returned op x res i done → done ≤ s.now) : Sequential o t where
  order := hobserved ▸ h.order
  past := by
    rw [hobserved, hnow]
    exact h.past
  shards := hobserved ▸ h.shards
  inFlight := by
    rw [hobserved, hphase]
    refine (Function.forall_update_iff s.phase fun c q => ∀ x, dispatch? q = some x → ∀ ob ∈ s.observed, ob.shard = c →
      ob.complete ≤ x).mpr ⟨fun x hx ob hob hshard => ?_, fun c' _ => h.inFlight c'⟩
    rcases hdispatch x hx with hsame | rfl
    · exact h.inFlight c x hsame ob hob hshard
    · exact h.past ob hob
  returned := by
    rw [hphase, hnow]
    exact (Function.forall_update_iff s.phase fun _ q =>
      ∀ op x res i done, q = .returned op x res i done → done ≤ s.now).mpr
      ⟨hreturned, fun c' _ => h.returned c'⟩
  active := by
    rw [hphase]
    exact (Function.forall_update_iff s.phase fun c q => q ≠ .idle → q ≠ .stopped → c < o.connections).mpr
      ⟨hc, fun c' _ => h.active c'⟩

/-- The observed operation was dispatched after its worker's earlier ones had completed. -/
theorem Sequential.observe (h : Sequential o s) {c : Nat} {op : Operation} {x : Int} {res : OpResult} {i : Nat}
    {done : Int} (hphase : s.phase c = .returned op x res i done) :
    Sequential o { s with
      phase := Function.update s.phase c .idle
      observed := s.observed ++ [⟨c, op, res, x, done, i⟩] } where
  order := by
    refine List.pairwise_append.mpr ⟨h.order, List.pairwise_singleton _ _, fun a ha b hb hshard => ?_⟩
    obtain rfl := List.mem_singleton.mp hb
    exact h.inFlight c x (by rw [hphase]; rfl) a ha hshard
  past ob hob := by
    rcases List.mem_append.mp hob with hob | hob
    · exact h.past ob hob
    · rw [List.mem_singleton.mp hob]
      exact h.returned c op x res i done hphase
  shards ob hob := by
    rcases List.mem_append.mp hob with hob | hob
    · exact h.shards ob hob
    · rw [List.mem_singleton.mp hob]
      exact h.active c (by simp [hphase]) (by simp [hphase])
  inFlight := by
    refine (Function.forall_update_iff s.phase fun c' q => ∀ y, dispatch? q = some y →
      ∀ ob ∈ s.observed ++ [_], ob.shard = c' → ob.complete ≤ y).mpr
        ⟨fun y hy => ?_, fun c' hc' y hy ob hob hshard => ?_⟩
    · cases hy
    · rcases List.mem_append.mp hob with hob | hob
      · exact h.inFlight c' y hy ob hob hshard
      · rw [List.mem_singleton.mp hob] at hshard
        exact absurd hshard.symm hc'
  returned := (Function.forall_update_iff s.phase fun _ q => ∀ op x res i done, q = .returned op x res i done →
    done ≤ s.now).mpr ⟨nofun, fun c' _ => h.returned c'⟩
  active := (Function.forall_update_iff s.phase fun c q => q ≠ .idle → q ≠ .stopped → c < o.connections).mpr
    ⟨fun hidle => absurd rfl hidle, fun c' _ => h.active c'⟩

theorem Sequential.step (h : Sequential o s) {a : Action} (ht : step d o s a = some t) : Sequential o t := by
  cases a with
  | tick n =>
      obtain rfl := Option.some.inj ht
      exact ⟨h.order, fun ob hob => le_trans (h.past ob hob) (by simp), h.shards, h.inFlight,
        fun c op x res i done hc => le_trans (h.returned c op x res i done hc) (by simp), h.active⟩
  | endCtx =>
      obtain rfl := Option.some.inj ht
      exact ⟨h.order, h.past, h.shards, h.inFlight, h.returned, h.active⟩
  | wake c =>
      have hc : c < o.connections := by
        simp only [Runner.step] at ht
        split_ifs at ht with hidle
        exact hidle.1
      obtain rfl := step_wake ht
      exact h.move rfl rfl rfl (fun _ _ => hc) (by simp [dispatch?]) (by simp)
  | dispatch c =>
      have hready : s.phase c = .ready := by
        simp only [Runner.step] at ht
        split at ht
        · assumption
        · cases ht
      obtain rfl := step_dispatch ht
      exact h.move rfl rfl rfl (fun _ _ => h.active c (by simp [hready]) (by simp [hready])) (by simp [dispatch?])
        (by simp)
  | exec c =>
      obtain ⟨op, x, hphase, rfl⟩ := step_exec ht
      exact h.move rfl rfl rfl (fun _ _ => h.active c (by simp [hphase]) (by simp [hphase]))
        (by simp [hphase, dispatch?]) (by simp)
  | ret c =>
      obtain ⟨op, x, res, i, hphase, rfl⟩ := step_ret ht
      exact h.move rfl rfl rfl (fun _ _ => h.active c (by simp [hphase]) (by simp [hphase]))
        (by simp [hphase, dispatch?]) (by simp +contextual)
  | finish c =>
      obtain ⟨op, x, res, i, done, hphase, rfl | rfl | rfl⟩ := step_finish ht
      · exact h.move rfl rfl rfl (by simp) (by simp [dispatch?]) (by simp)
      · exact h.move rfl rfl rfl (by simp) (by simp [dispatch?]) (by simp)
      · exact h.observe hphase
  | stop c =>
      obtain rfl := step_stop ht
      exact h.move rfl rfl rfl (by simp) (by simp [dispatch?]) (by simp)

/-- **The events of one process never overlap**, and are recorded in order. -/
theorem sequential (h : Reachable (step d o) (init d) s) : Sequential o s := by
  refine h.invariant ?_ fun s a t hs ht => hs.step ht
  exact ⟨List.Pairwise.nil, by simp [init], by simp [init], by simp [init], by simp [init], by simp [init]⟩

theorem noFalseOrder_of_one_connection (h : Reachable (step d o) (init d) s) (hone : o.connections = 1) :
    NoFalseOrder (recordHistory s) := by
  have hseq := sequential h
  apply noFalseOrder_of_pairwise
  refine List.pairwise_map.mpr (hseq.order.imp_of_mem fun {a b} ha hb hab => ?_)
  have hshard : a.shard = b.shard := by
    have := hseq.shards a ha
    have := hseq.shards b hb
    omega
  simp only [recordEvent, observe_interval]
  exact hab hshard

end Sequential

/-- Every connection appends to one key. -/
def appends : Nat → Nat → Operation := fun c i => { type := "append", key := 0, value := [1], seq := 2 * i + c }

/-- Two connections dispatch at time zero and return five units later. -/
def overlappingRun : List Action :=
  [.wake 0, .wake 1, .dispatch 0, .dispatch 1, .exec 0, .exec 1, .tick 5, .ret 0, .ret 1, .finish 0, .finish 1]

/-- The two operations overlap, and the lines say that the first had completed before the second was invoked. -/
theorem overlap_written_as_order :
    ∃ s, Reachable (step (registerTarget appends) ⟨2, 0⟩) (init (registerTarget appends)) s ∧
      (recordHistory s).events.map (fun e => (e.process, e.invoke, e.complete)) = [(0, 0, 5), (1, 0, 5)] ∧
      ¬ NoFalseOrder (recordHistory s) := by
  obtain ⟨s, hreach, hevents⟩ :
      ∃ s, Reachable (step (registerTarget appends) ⟨2, 0⟩) (init (registerTarget appends)) s ∧
      (recordHistory s).events.map (fun e => (e.process, e.invoke, e.complete)) = [(0, 0, 5), (1, 0, 5)] :=
    exists_reachable overlappingRun (by decide +kernel)
  refine ⟨s, hreach, hevents, fun horder => ?_⟩
  obtain ⟨a, rest, hlist, ha, hrest⟩ := List.map_eq_cons_iff.mp hevents
  obtain ⟨b, rest', rfl, hb, hnil⟩ := List.map_eq_cons_iff.mp hrest
  obtain rfl := List.map_eq_nil_iff.mp hnil
  have hlines : writeElleEDN (recordHistory s) =
      [invokeLine 0 a, completionLine 0 a, invokeLine 1 b, completionLine 1 b] := by
    rw [writeElleEDN, hlist]
    rfl
  have hle := horder 1 2 (completionLine 0 a) (invokeLine 1 b) a b (by omega) (by rw [hlines]; rfl)
    (by rw [hlines]; rfl)
    rfl rfl (by rw [hlist]; rfl) (by rw [hlist]; rfl)
  rw [(Prod.mk.inj (Prod.mk.inj ha).2).2, (Prod.mk.inj (Prod.mk.inj hb).2).1] at hle
  exact absurd hle (by decide)

/-! ## Tokens -/

/-- The element that an append writes, an unsigned number. -/
def appendToken (e : Event) : String := toString e.wVal.toNat

/-- The elements of an observed list, signed numbers. -/
def listTokens (e : Event) : List String := e.rList.map toString

theorem toString_string (s : String) : toString s = s := rfl

theorem mops_append {e : Event} (hf : e.f = .append) :
    ∃ post, mops e true = "[[:append " ++ toString e.key ++ " " ++ appendToken e ++ "]" ++ post := by
  unfold mops
  rw [hf]
  dsimp only
  split
  · refine ⟨" [:r " ++ toString e.key ++ " " ++ ednList e.rList ++ "]]", ?_⟩
    apply String.toList_inj.mp
    simp [appendToken, toString_string]
  · refine ⟨"]", ?_⟩
    apply String.toList_inj.mp
    simp [appendToken, toString_string]

theorem mops_list {e : Event} (hf : e.f ≠ .write) (hlist : e.rList ≠ []) :
    ∃ pre, mops e true = pre ++ "[:r " ++ toString e.key ++ " [" ++ " ".intercalate (listTokens e) ++ "]]]" := by
  have hpos := List.length_pos_of_ne_nil hlist
  have hedn : ednList e.rList = "[" ++ " ".intercalate (listTokens e) ++ "]" := if_neg (by omega)
  unfold mops
  cases hfam : e.f with
  | write => exact absurd hfam hf
  | read =>
      refine ⟨"[", ?_⟩
      apply String.toList_inj.mp
      simp [hedn, toString_string]
  | append =>
      refine ⟨"[[:append " ++ toString e.key ++ " " ++ appendToken e ++ "] ", ?_⟩
      apply String.toList_inj.mp
      simp [hpos, hedn, appendToken, toString_string]

/-- A checksum and its conversion to a signed word have the same text exactly below `2^63`. -/
theorem toString_toInt64_iff (u : UInt64) : toString (toInt64 u) = toString u.toNat ↔ u.toNat < 2 ^ 63 := by
  have hlt := u.toNat_lt
  have hcast : toString u.toNat = toString (u.toNat : Int) := rfl
  rw [hcast]
  constructor
  · intro h
    have heq := toString_int_injective h
    have := (wrap64_range u.toNat).2
    unfold toInt64 at heq
    omega
  · intro h
    rw [toInt64, wrap64_eq_self (by omega) (by omega)]

section Tokens
variable (p : Nat) (op : Operation) (res : OpResult) (invoke complete : Int)

theorem appendToken_toLine (hop : isAppendOp op.type = true) :
    (observe p op res invoke complete).toLine.toEvent.f = .append ∧
      appendToken (observe p op res invoke complete).toLine.toEvent = toString (checksum op.value).toNat := by
  simp [observe, hop, appendToken]

/-- The elements of a list of byte strings that an append or a read has observed. -/
theorem listTokens_toLine (hop : isAppendOp op.type = true ∨ op.value = []) {l : List Bytes}
    (hobserved : res.observed = .byteSlices l) :
    (observe p op res invoke complete).toLine.toEvent.f ≠ .write ∧
      listTokens (observe p op res invoke complete).toLine.toEvent =
        l.map fun v => toString (toInt64 (checksum v)) := by
  have hrList : (observe p op res invoke complete).rList = l.map fun v => toInt64 (checksum v) := by
    rcases hop with hop | hvalue
    · simp [observe, hop, hobserved, observedList]
    · by_cases hop : isAppendOp op.type = true <;> simp [observe, hop, hvalue, hobserved, observedList]
  refine ⟨?_, ?_⟩
  · rw [HistoryLine.f_toEvent, Event.f_toLine, observe_family]
    rcases hop with hop | hvalue
    · simp [hop]
    · split_ifs <;> simp_all
  · rw [listTokens, Event.rList_toEvent_toLine, hrList, List.map_map]
    · rfl
    · intro x hx
      rw [hrList] at hx
      obtain ⟨v, -, rfl⟩ := List.mem_map.mp hx
      exact wrap64_range _

end Tokens

/-- **Tokens in the Elle history.** After the history file, the element that an append of `v` writes and the element
for `v` in a list that a read or an append observed are the same text exactly if the checksum of `v` is below `2^63`. -/
theorem tokens_agree_iff {s : RecordWriter HistoryLine}
    (h : Reachable (RecordWriter.step historyCodec) RecordWriter.fresh s) (hclosed : s.closed = true)
    {hist : ParsedHistory} (hread : readHistory s.bw.out = .ok hist) {i j p q : Nat} {op op' : Operation}
    {res res' : OpResult} {invoke complete invoke' complete' : Int}
    (hi : s.appended[i]? = some (observe p op res invoke complete).toLine)
    (hj : s.appended[j]? = some (observe q op' res' invoke' complete').toLine)
    (hop : isAppendOp op.type = true) (hop' : isAppendOp op'.type = true ∨ op'.value = []) {l : List Bytes}
    (hobserved : res'.observed = .byteSlices l) {n : Nat} (hn : l[n]? = some op.value) :
    ∃ (a b : Event) (pre post : String),
      (writeElleEDN hist.toHistory)[2 * i + 1]? = some (completionLine i a) ∧
      (writeElleEDN hist.toHistory)[2 * j + 1]? = some (completionLine j b) ∧
      mops a true = "[[:append " ++ toString a.key ++ " " ++ appendToken a ++ "]" ++ post ∧
      mops b true = pre ++ "[:r " ++ toString b.key ++ " [" ++ " ".intercalate (listTokens b) ++ "]]]" ∧
      ((listTokens b)[n]? = some (appendToken a) ↔ (checksum op.value).toNat < 2 ^ 63) := by
  have hall : hist.events = s.appended := by
    rw [readHistory_of_closed h hclosed] at hread
    split at hread
    · obtain rfl := Except.ok.inj hread
      rfl
    · cases hread
  have hline : ∀ (m : Nat) (e : HistoryLine), s.appended[m]? = some e →
      (writeElleEDN hist.toHistory)[2 * m + 1]? = some (completionLine m e.toEvent) := by
    intro m e he
    rw [writeElleEDN, elleLines_getElem?, show (2 * m + 1) / 2 = m by omega, show (2 * m + 1) % 2 = 1 by omega,
      ParsedHistory.toHistory, hall, List.getElem?_map, he]
    simp
  obtain ⟨hf, htoken⟩ := appendToken_toLine p op res invoke complete hop
  obtain ⟨hf', htokens⟩ := listTokens_toLine q op' res' invoke' complete' hop' hobserved
  have hlist : (observe q op' res' invoke' complete').toLine.toEvent.rList ≠ [] := by
    intro hnil
    rw [listTokens, hnil, List.map_nil, eq_comm, List.map_eq_nil_iff] at htokens
    rw [htokens] at hn
    cases hn
  obtain ⟨post, hpost⟩ := mops_append hf
  obtain ⟨pre, hpre⟩ := mops_list hf' hlist
  refine ⟨_, _, pre, post, hline i _ hi, hline j _ hj, hpost, hpre, ?_⟩
  rw [htoken, htokens, List.getElem?_map, hn]
  simp only [Option.map_some, Option.some_inj]
  exact toString_toInt64_iff _

/-- An append of `v`, and a read that observes it. -/
def appendThenRead (v : Bytes) : List HistoryLine :=
  [(observe 0 { type := "append", key := 0, value := v, seq := 1 } ⟨"append", 1, .nil, none⟩ 0 1).toLine,
    (observe 0 { type := "read", key := 0, value := [], seq := 2 } ⟨"read", 1, .byteSlices [v], none⟩ 2 3).toLine]

/-- Two zero bytes, whose checksum is small. -/
theorem tokens_agree_iff_on_zero_bytes :
    ∃ (s : RecordWriter HistoryLine) (hist : ParsedHistory),
      Reachable (RecordWriter.step historyCodec) RecordWriter.fresh s ∧ s.appended = appendThenRead [0, 0] ∧
      readHistory s.bw.out = .ok hist ∧
      ∃ (a b : Event) (pre post : String), (writeElleEDN hist.toHistory)[1]? = some (completionLine 0 a) ∧
        (writeElleEDN hist.toHistory)[3]? = some (completionLine 1 b) ∧
        mops a true = "[[:append " ++ toString a.key ++ " " ++ appendToken a ++ "]" ++ post ∧
        mops b true = pre ++ "[:r " ++ toString b.key ++ " [" ++ " ".intercalate (listTokens b) ++ "]]]" ∧
        (listTokens b)[0]? = some (appendToken a) := by
  obtain ⟨s, hreach, hclosed, happended⟩ := RecordWriter.exists_closed historyCodec (appendThenRead [0, 0])
  have hread : readHistory s.bw.out = .ok (.ofEvents (appendThenRead [0, 0])) := by
    rw [readHistory_of_closed hreach hclosed, happended, if_pos (by decide +kernel)]
  obtain ⟨a, b, pre, post, ha, hb, hpost, hpre, hiff⟩ := tokens_agree_iff hreach hclosed hread (i := 0) (j := 1)
    (by rw [happended]; rfl) (by rw [happended]; rfl) (by decide) (Or.inr rfl) rfl (n := 0) rfl
  exact ⟨s, _, hreach, happended, hread, a, b, pre, post, ha, hb, hpost, hpre, hiff.mpr (by decide +kernel)⟩

/-- The byte `a` is appended as an unsigned number and listed as a negative one. -/
theorem append_listed_negative :
    ∃ (s : RecordWriter HistoryLine) (hist : ParsedHistory),
      Reachable (RecordWriter.step historyCodec) RecordWriter.fresh s ∧ s.closed = true ∧
      s.appended = appendThenRead [97] ∧ readHistory s.bw.out = .ok hist ∧
      hist.toHistory.events.map (fun e => mops e true) =
        ["[[:append 0 12638187200555641996]]", "[[:r 0 [-5808556873153909620]]]"] := by
  obtain ⟨s, hreach, hclosed, happended⟩ := RecordWriter.exists_closed historyCodec (appendThenRead [97])
  have hread : readHistory s.bw.out = .ok (.ofEvents (appendThenRead [97])) := by
    rw [readHistory_of_closed hreach hclosed, happended, if_pos (by decide +kernel)]
  exact ⟨s, _, hreach, hclosed, happended, hread, by decide +kernel⟩

end Proofload.Verify
