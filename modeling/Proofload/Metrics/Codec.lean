import Proofload.Metrics.Recorder
import Proofload.Lib.Json
import Proofload.Lib.Base64
import Mathlib.Data.List.Sort

/-!
# Recorders on the wire (`core/metrics/codec.go`)

A Recorder travels as an envelope of its encoded histograms and error counters: JSON text wrapped in base64. The
numbers of the envelope are unbounded integers here, like the counters.

* `unmarshalEnvelope_marshal` : the envelope reads back, up to the order of its maps;
* `decode_encode_local` : a decoded Recorder has one Local, the aggregate of the encoded one;
* `decode_encode` : a decoded Recorder has the geometry of the encoded one and holds what it held.
-/

namespace Proofload.Metrics
open Lib

set_option autoImplicit false

/-! ## The code -/

structure WireEnvelope where
  high : Int
  sig : Int
  overall : Bytes
  byOp : Map OpType Bytes
  errByOp : Map OpType Int
  errTotal : Int

/-- A map as the members of an object, sorted by key. -/
def mapFields {ν : Type} (toJson : ν → Json) (m : Map OpType ν) : Fields :=
  .ofList ((m.keys.insertionSort (· ≤ ·)).filterMap fun k => (m.lookup k).map fun v => (stringBytes k, toJson v))

def WireEnvelope.toJson (env : WireEnvelope) : Json :=
  .obj (.ofList [(stringBytes "high_ns", .num env.high), (stringBytes "sig", .num env.sig),
    (stringBytes "overall", .str env.overall), (stringBytes "by_op", .obj (mapFields .str env.byOp)),
    (stringBytes "err_by_op", .obj (mapFields .num env.errByOp)), (stringBytes "err_total", .num env.errTotal)])

/-- The members of an object as a map. -/
def parseMap {ν : Type} (ofJson : Json → Option ν) (fields : Fields) : Option (Map OpType ν) :=
  fields.toList.foldlM (fun m member => do
    let k ← bytesString member.1
    let v ← ofJson member.2
    some (m.insert k v)) ∅

/-- One member of the envelope; an unknown one is skipped. -/
def setField (env : WireEnvelope) (member : List UInt8 × Json) : Option WireEnvelope :=
  let key := bytesString member.1
  let value := member.2
  if key = some "high_ns" then value.num?.map fun n => { env with high := n }
  else if key = some "sig" then value.num?.map fun n => { env with sig := n }
  else if key = some "overall" then value.str?.map fun s => { env with overall := s }
  else if key = some "by_op" then (value.fields?.bind (parseMap Json.str?)).map fun m => { env with byOp := m }
  else if key = some "err_by_op" then (value.fields?.bind (parseMap Json.num?)).map fun m => { env with errByOp := m }
  else if key = some "err_total" then value.num?.map fun n => { env with errTotal := n }
  else some env

def marshalEnvelope (env : WireEnvelope) : Bytes := env.toJson.print

/-- Absent members keep their zero values. -/
def unmarshalEnvelope (raw : Bytes) : Option WireEnvelope := do
  let j ← unmarshalJson raw
  let fields ← j.fields?
  fields.toList.foldlM setField ⟨0, 0, [], ∅, ∅, 0⟩

def withContext {α : Type} (context : String) (e : Except String α) : Except String α :=
  e.mapError fun err => context ++ ": " ++ err

def Recorder.encode (D : Hdr) (o : IterOrder OpType) (r : Recorder D.toLayout) : Except String Bytes := do
  let m := r.collect o
  let overall ← withContext "encode overall" (D.encode m.overall)
  let byOp ← Map.mapExcept o (fun op h => withContext s!"encode op {String.quote op}" (D.encode h)) m.byOp
  let env : WireEnvelope :=
    { high := r.high, sig := r.sig, overall, byOp, errByOp := m.errByOp, errTotal := m.errTotal }
  .ok (encodeBase64 (marshalEnvelope env))

/-- The reasons that the standard library gives are left out of the first two errors. -/
def decode (D : Hdr) (o : IterOrder OpType) (b : Bytes) : Except String (Recorder D.toLayout) :=
  match decodeBase64 b with
  | none => .error "base64 decode: illegal base64 data"
  | some raw =>
      match unmarshalEnvelope raw with
      | none => .error "unmarshal envelope: invalid envelope"
      | some env => do
          let overall ← withContext "decode overall" (D.decode env.overall)
          let byOp ← Map.mapExcept o (fun op s => withContext s!"decode op {String.quote op}" (D.decode s)) env.byOp
          let sig := if env.sig < 1 ∨ 5 < env.sig then defaultSigFigs else env.sig
          .ok { high := env.high, sig, prevSnap := ∅, prevErr := ∅,
                locals := [{ high := env.high, sig, overall, byOp, errByOp := env.errByOp, errTotal := env.errTotal }] }

/-! ## The envelope reads back -/

/-- Envelopes with the same entries. -/
def WireEnvelope.Same (a b : WireEnvelope) : Prop :=
  a.high = b.high ∧ a.sig = b.sig ∧ a.overall = b.overall ∧ a.errTotal = b.errTotal ∧
    (∀ op, a.byOp.lookup op = b.byOp.lookup op) ∧ ∀ op, a.errByOp.lookup op = b.errByOp.lookup op

theorem parseMap_mapFields {ν : Type} (toJson : ν → Json) (ofJson : Json → Option ν)
    (hback : ∀ v, ofJson (toJson v) = some v) (m : Map OpType ν) :
    ∃ m', parseMap ofJson (mapFields toJson m) = some m' ∧ ∀ k, m'.lookup k = m.lookup k := by
  have hloop : ∀ (keys : List OpType) (acc : Map OpType ν), (∀ k ∈ keys, (m.lookup k).isSome) →
      ∃ m', (keys.filterMap fun k => (m.lookup k).map fun v => (stringBytes k, toJson v)).foldlM
        (fun m member => do
          let k ← bytesString member.1
          let v ← ofJson member.2
          some (m.insert k v)) acc = some m' ∧
      ∀ k, m'.lookup k = if k ∈ keys then m.lookup k else acc.lookup k := by
    intro keys
    induction keys with
    | nil => exact fun acc _ => ⟨acc, rfl, fun k => by simp⟩
    | cons a keys ih =>
        intro acc hsome
        obtain ⟨v, hv⟩ := Option.isSome_iff_exists.mp (hsome a List.mem_cons_self)
        obtain ⟨m', hm', hspec⟩ := ih (acc.insert a v) fun k hk => hsome k (List.mem_cons_of_mem a hk)
        refine ⟨m', ?_, fun k => ?_⟩
        · rw [List.filterMap_cons, hv]
          dsimp only [Option.map_some]
          rw [List.foldlM_cons, bytesString_stringBytes, hback]
          exact hm'
        · rw [hspec k, Map.lookup_insert_eq]
          by_cases hka : k = a
          · subst hka
            simp [hv]
          · simp [hka]
  obtain ⟨m', hm', hspec⟩ := hloop (m.keys.insertionSort (· ≤ ·)) ∅ fun k hk =>
    (Map.mem_keys_iff m k).mp ((List.perm_insertionSort _ _).mem_iff.mp hk)
  refine ⟨m', ?_, fun k => ?_⟩
  · unfold parseMap mapFields
    rw [Fields.toList_ofList]
    exact hm'
  · rw [hspec k]
    split
    · rfl
    · next hnot =>
      rw [(List.perm_insertionSort _ _).mem_iff, Map.mem_keys_iff, Option.not_isSome_iff_eq_none] at hnot
      rw [hnot]
      rfl

/-- **The envelope reads back.** -/
theorem unmarshalEnvelope_marshal (env : WireEnvelope) :
    ∃ env', unmarshalEnvelope (marshalEnvelope env) = some env' ∧ env'.Same env := by
  obtain ⟨byOp, hbyOp, hops⟩ := parseMap_mapFields Json.str Json.str? (fun _ => rfl) env.byOp
  obtain ⟨errByOp, herrByOp, herrs⟩ := parseMap_mapFields Json.num Json.num? (fun _ => rfl) env.errByOp
  refine ⟨⟨env.high, env.sig, env.overall, byOp, errByOp, env.errTotal⟩, ?_, rfl, rfl, rfl, rfl, hops, herrs⟩
  unfold unmarshalEnvelope marshalEnvelope
  rw [unmarshalJson_print]
  unfold WireEnvelope.toJson
  simp only [Option.bind_eq_bind, Option.bind_some, Json.fields?, Fields.toList_ofList, List.foldlM_cons,
    List.foldlM_nil,
    setField, bytesString_stringBytes, Json.num?, Json.str?, hbyOp, herrByOp]
  simp

/-! ## The Recorder reads back -/

variable {D : Hdr} {o : IterOrder OpType} {r : Recorder D.toLayout} {ms : Multiset Measured}

/-- What `Encode` puts into the envelope, and the histograms that its texts decode to. -/
theorem encode_ok (D : Hdr) (o : IterOrder OpType) (r : Recorder D.toLayout) :
    ∃ env : WireEnvelope, r.encode D o = .ok (encodeBase64 (marshalEnvelope env)) ∧
      env.high = r.high ∧ env.sig = r.sig ∧
      D.decode env.overall = .ok (r.collect o).overall ∧ env.errByOp = (r.collect o).errByOp ∧
      env.errTotal = (r.collect o).errTotal ∧
      ∀ op, Option.Rel (fun h bs => D.decode bs = .ok h) ((r.collect o).byOp.lookup op) (env.byOp.lookup op) := by
  obtain ⟨overall, hencode, hdecode⟩ := D.lossless (r.collect o).overall
  obtain ⟨byOp, hbyOp, hrel⟩ := Map.mapExcept_rel o
    (fun op h => withContext s!"encode op {String.quote op}" (D.encode h)) (r.collect o).byOp
    (R := fun h bs => D.decode bs = .ok h) fun op h _ => by
      obtain ⟨bs, hbs, hback⟩ := D.lossless h
      exact ⟨bs, by rw [hbs]; rfl, hback⟩
  refine ⟨⟨r.high, r.sig, overall, byOp, (r.collect o).errByOp, (r.collect o).errTotal⟩, ?_, rfl, rfl, hdecode,
    rfl, rfl, hrel⟩
  unfold Recorder.encode
  dsimp only
  rw [hencode, hbyOp]
  rfl

/-- **A decoded Recorder has one Local, the aggregate of the encoded one**, whatever the orders of the maps are. -/
theorem decode_encode_local (D : Hdr) (o o' : IterOrder OpType) (r : Recorder D.toLayout) :
    ∃ b r' l, r.encode D o = .ok b ∧ decode D o' b = .ok r' ∧ r'.locals = [l] ∧
      r'.high = r.high ∧ r'.sig = (if r.sig < 1 ∨ 5 < r.sig then defaultSigFigs else r.sig) ∧
      l.high = r'.high ∧ l.sig = r'.sig ∧ l.overall = (r.collect o).overall ∧
      (∀ op, l.byOp.lookup op = (r.collect o).byOp.lookup op) ∧
      (∀ op, l.errByOp.lookup op = (r.collect o).errByOp.lookup op) ∧ l.errTotal = (r.collect o).errTotal := by
  obtain ⟨env, hencode, hhigh, henvsig, hoverall, herrByOp, herrTotal, hrel⟩ := encode_ok D o r
  obtain ⟨env', hunmarshal, hhigh', hsig', hoverall', herrTotal', hops', herrs'⟩ := unmarshalEnvelope_marshal env
  obtain ⟨byOp, hbyOp, hback⟩ := Map.mapExcept_rel o'
    (fun op s => withContext s!"decode op {String.quote op}" (D.decode s)) env'.byOp
    (R := fun bs h => D.decode bs = .ok h) fun op bs hbs => by
      have := hrel op
      rw [← hops' op, hbs] at this
      cases hlookup : (r.collect o).byOp.lookup op with
      | none => rw [hlookup] at this; cases this
      | some h =>
          rw [hlookup] at this
          cases this with
          | some hdecode => exact ⟨h, by rw [hdecode]; rfl, hdecode⟩
  have hlookup : ∀ op, byOp.lookup op = (r.collect o).byOp.lookup op := by
    intro op
    have hto := hrel op
    have hfrom := hback op
    rw [hops' op] at hfrom
    generalize env.byOp.lookup op = text at hto hfrom
    generalize (r.collect o).byOp.lookup op = before at hto ⊢
    generalize byOp.lookup op = after at hfrom ⊢
    cases hto with
    | none => cases hfrom with | none => rfl
    | some hdecode =>
        cases hfrom with
        | some hdecode' => rw [Except.ok.inj (hdecode'.symm.trans hdecode)]
  have hhighs : env'.high = r.high := hhigh'.trans hhigh
  have hsigs : env'.sig = r.sig := hsig'.trans henvsig
  let sig := if env'.sig < 1 ∨ 5 < env'.sig then defaultSigFigs else env'.sig
  let l : Local D.toLayout :=
    { high := env'.high, sig, overall := (r.collect o).overall, byOp, errByOp := env'.errByOp,
      errTotal := env'.errTotal }
  refine ⟨_, { high := env'.high, sig, prevSnap := ∅, prevErr := ∅, locals := [l] }, l, hencode, ?_, rfl, hhighs, ?_,
    rfl, rfl, rfl, hlookup, fun op => ?_, herrTotal'.trans herrTotal⟩
  · unfold decode
    rw [decodeBase64_encodeBase64]
    dsimp only
    rw [hunmarshal]
    dsimp only
    rw [hoverall', hoverall, hbyOp]
    rfl
  · show (if env'.sig < 1 ∨ 5 < env'.sig then defaultSigFigs else env'.sig) = _
    rw [hsigs]
  · exact (herrs' op).trans (by rw [herrByOp])

/-- **A decoded Recorder holds what the encoded one held**, in one Local. -/
theorem decode_encode (hsig : 1 ≤ r.sig ∧ r.sig ≤ 5) (h : Tallied r.geometry (r.collect o) ms)
    (o' : IterOrder OpType) :
    ∃ b r', r.encode D o = .ok b ∧ decode D o' b = .ok r' ∧ r'.high = r.high ∧ r'.sig = r.sig ∧
      r'.locals.length = 1 ∧ Held r' fun _ => ms := by
  obtain ⟨b, r', l, hencode, hdecode, hlocals, hhigh, hsig', hlhigh, hlsig, hoverall, hbyOp, herrByOp, herrTotal⟩ :=
    decode_encode_local D o o' r
  rw [if_neg (by omega)] at hsig'
  refine ⟨b, r', hencode, hdecode, hhigh, hsig', by rw [hlocals]; rfl, fun i l' hget => ?_⟩
  rw [hlocals] at hget
  obtain ⟨-, rfl⟩ : i = 0 ∧ l = l' := by simpa [List.getElem?_singleton] using hget
  have hgeometry : r'.geometry = r.geometry := by
    unfold Recorder.geometry
    rw [hhigh, hsig']
  rw [hgeometry]
  exact ⟨hlhigh, hlsig, hoverall.trans h.overall, fun op => (hbyOp op).trans (h.byOp op),
    fun op => (herrByOp op).trans (h.errByOp op), herrTotal.trans h.errTotal⟩

end Proofload.Metrics
