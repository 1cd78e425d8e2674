import Proofload.Workload.Config

/-!
# Layered configuration (`core/config/resolve.go`, `target.go`)

`Resolve` loads a global file, the target file, the environment and the values of the command line into one flat
`koanf` instance, where every load overwrites the keys it carries, and reads the settings out of it.

* `lookup_loadAll` : which layer the code takes a key from;
* `resolve_precedence_iff` : for which inputs that is the highest layer that sets the key.
-/

namespace Proofload.Config
open Lib

set_option autoImplicit false

/-! ## The code -/

/-- A configuration value; `other` are the remaining values a file can hold. -/
inductive Value where
  | int (n : Int)
  | duration (ns : Int)
  | string (s : String)
  | strings (l : List String)
  | other (text : String)
deriving DecidableEq

/-- The conversions of `koanf`, which leave a value of the wanted type as it is. -/
structure Getters where
  int : Value → Int
  duration : Value → Int
  string : Value → String
  strings : Value → List String
  int_int : ∀ n, int (.int n) = n
  duration_duration : ∀ ns, duration (.duration ns) = ns
  string_string : ∀ s, string (.string s) = s
  strings_strings : ∀ l, strings (.strings l) = l

/-- A flat `koanf` instance. -/
abbrev Koanf := Map String Value

def Koanf.load (k layer : Koanf) : Koanf := layer ∪ k

def Koanf.set (k : Koanf) (key : String) (v : Value) : Koanf := k.insert key v

/-- The settings a `target.yaml` gives; an absent field is `none`. -/
structure TargetYaml where
  connections : Option Int
  warmup : Option String
  duration : Option String
  consistency : List String

structure Defaults where
  connections : Int
  warmup : Int
  duration : Int

structure TargetConfig where
  defaults : Defaults
  consistency : List String

section Target
variable (parse : String → Except String Int)  -- `time.ParseDuration`

/-- An empty text is no time. -/
def parseDuration (s field : String) : Except String Int :=
  if s = "" then .ok 0
  else match parse s with
    | .ok d => .ok d
    | .error e => .error s!"invalid {field} {String.quote s}: {e}"

/-- `LoadTarget` and `mapTarget`: absent fields are unmarshalled to their zero values. -/
def mapTarget (ty : TargetYaml) : Except String TargetConfig := do
  let warmup ← parseDuration parse (ty.warmup.getD "") "warmup"
  let duration ← parseDuration parse (ty.duration.getD "") "duration"
  return ⟨⟨ty.connections.getD 0, warmup, duration⟩, ty.consistency⟩

end Target

/-- `ResolveOptions` apart from the paths of the target and the workload file. -/
structure ResolveOptions where
  globalPath : String
  endpoints : List String
  consistency : String
  overrides : Koanf

/-- What the files hold, or why they cannot be read, and the environment. -/
structure Sources where
  global : Except String Koanf
  target : Except String TargetYaml
  workload : Except String WorkloadFile
  environ : List (String × String)

/-- The key of an environment variable, if it is in the scope `PROOFLOAD_`; `lower` is `strings.ToLower`. -/
def envName (lower : String → String) (name : String) : Option String :=
  if "PROOFLOAD_".toList.isPrefixOf name.toList then some (lower (String.ofList (name.toList.drop 10))) else none

/-- `strings.Split` at the commas. -/
def splitCommas (s : String) : List String := (s.toList.splitOn ',').map String.ofList

def envProvider (lower : String → String) (environ : List (String × String)) : Koanf :=
  environ.foldl (fun k e =>
    match envName lower e.1 with
    | none => k
    | some name => k.set name (if name = "endpoints" then .strings (splitCommas e.2) else .string e.2)) ∅

structure Settings where
  connections : Int
  duration : Int
  warmup : Int
  consistency : String
  endpoints : List String
  rate : RateSpec
deriving DecidableEq

def readSettings (G : Getters) (k : Koanf) : Settings :=
  let ops := ((k.lookup "ops_per_sec").map G.int).getD 0
  { connections := ((k.lookup "connections").map G.int).getD 0
    duration := ((k.lookup "duration").map G.duration).getD 0
    warmup := ((k.lookup "warmup").map G.duration).getD 0
    consistency := ((k.lookup "consistency").map G.string).getD ""
    endpoints := ((k.lookup "endpoints").map G.strings).getD []
    rate := if 0 < ops then ⟨.fixed, ops⟩ else ⟨.unset, 0⟩ }

/-- The defaults of the target as they are loaded. -/
def Defaults.layer (d : Defaults) : Koanf :=
  ((∅ : Koanf).insert "warmup" (.duration d.warmup)).insert "duration" (.duration d.duration)
    |>.insert "connections" (.int d.connections)

/-- The first of the consistency levels is set, if there is one. -/
def Koanf.setLevel (k : Koanf) : List String → Koanf
  | [] => k
  | level :: _ => k.set "consistency" (.string level)

/-- The two fields of the options are set unless they are empty. -/
def Koanf.setFields (k : Koanf) (o : ResolveOptions) : Koanf :=
  let k := if o.consistency ≠ "" then k.set "consistency" (.string o.consistency) else k
  if o.endpoints ≠ [] then k.set "endpoints" (.strings o.endpoints) else k

/-- The sequence of loads of `resolveSettings`, over the global file. -/
def loadAll (lower : String → String) (o : ResolveOptions) (environ : List (String × String)) (t : TargetConfig)
    (global : Koanf) : Koanf :=
  let k := ((global.load t.defaults.layer).setLevel t.consistency).setFields o
  let k := k.load (envProvider lower environ)
  if 0 < o.overrides.size then k.load o.overrides else k

def resolveSettings (G : Getters) (lower : String → String) (o : ResolveOptions) (src : Sources) (t : TargetConfig) :
    Except String Settings :=
  if o.globalPath = "" then .ok (readSettings G (loadAll lower o src.environ t ∅))
  else match src.global with
    | .error e => .error s!"read {o.globalPath}: {e}"
    | .ok global => .ok (readSettings G (loadAll lower o src.environ t global))

structure DriverConfig where
  endpoints : List String
  consistency : String

structure Manifest where
  rate : RateSpec
  duration : Int
  warmup : Int
  connections : Int
  consistency : String

structure Resolved where
  workload : Workload
  driver : DriverConfig
  manifest : Manifest

def resolve (G : Getters) (lower : String → String) (parse : String → Except String Int) (o : ResolveOptions)
    (src : Sources) : Except String Resolved := do
  let target ← mapTarget parse (← src.target)
  let workload ← mapWorkload (← src.workload)
  let s ← resolveSettings G lower o src target
  return { workload, driver := ⟨s.endpoints, s.consistency⟩,
           manifest := ⟨s.rate, s.duration, s.warmup, s.connections, s.consistency⟩ }

/-! ## What the layers set -/

/-- The value of the first layer that sets one, the highest layer in front. -/
def highest (layers : List (Option Value)) : Option Value := layers.findSome? id

section Layers
variable (lower : String → String) (parse : String → Except String Int) (o : ResolveOptions) (src : Sources)

/-- What the two fields of the options give for a key. -/
def fieldLayer (key : String) : Option Value :=
  if key = "consistency" then if o.consistency = "" then none else some (.string o.consistency)
  else if key = "endpoints" then if o.endpoints = [] then none else some (.strings o.endpoints)
  else none

/-- What the command line gives for a key: an override, else a field of the options. -/
def cliLayer (key : String) : Option Value := (o.overrides.lookup key).or (fieldLayer o key)

def envLayer (key : String) : Option Value := (envProvider lower src.environ).lookup key

/-- What a target file gives for a key; it has no endpoints, and its first consistency level is the default. -/
def TargetYaml.layer (ty : TargetYaml) (key : String) : Option Value :=
  if key = "connections" then ty.connections.map .int
  else if key = "duration" then ty.duration.bind fun s => (parseDuration parse s key).toOption.map .duration
  else if key = "warmup" then ty.warmup.bind fun s => (parseDuration parse s key).toOption.map .duration
  else if key = "consistency" then ty.consistency.head?.map .string
  else none

def targetLayer (key : String) : Option Value := src.target.toOption.bind fun ty => ty.layer parse key

def globalLayer (key : String) : Option Value :=
  if o.globalPath = "" then none else src.global.toOption.bind fun k => k.lookup key

/-- The value of the highest layer that sets the key, in the documented order. -/
def documented (key : String) : Option Value :=
  highest [cliLayer o key, envLayer lower src key, targetLayer parse src key, globalLayer o src key]

end Layers

/-! ## The order of the code -/

section Code
variable {lower : String → String} {parse : String → Except String Int} {o : ResolveOptions} {src : Sources}

theorem lookup_load (k layer : Koanf) (key : String) :
    (k.load layer).lookup key = (layer.lookup key).or (k.lookup key) :=
  Map.lookup_union_eq layer k key

theorem lookup_set (k : Koanf) (key key' : String) (v : Value) :
    (k.set key v).lookup key' = if key' = key then some v else k.lookup key' := Map.lookup_insert_eq k key key' v

/-- The first consistency level of the target as it is loaded. -/
def levelLayer (t : TargetConfig) (key : String) : Option Value :=
  if key = "consistency" then t.consistency.head?.map .string else none

theorem lookup_setLevel (k : Koanf) (t : TargetConfig) (key : String) :
    (k.setLevel t.consistency).lookup key = (levelLayer t key).or (k.lookup key) := by
  unfold levelLayer
  cases t.consistency with
  | nil => simp [Koanf.setLevel]
  | cons level levels =>
      rw [Koanf.setLevel, lookup_set]
      split_ifs <;> rfl

theorem lookup_setFields (k : Koanf) (o : ResolveOptions) (key : String) :
    (k.setFields o).lookup key = (fieldLayer o key).or (k.lookup key) := by
  unfold Koanf.setFields fieldLayer
  by_cases hlevel : o.consistency = "" <;> by_cases hends : o.endpoints = []
  · simp [hlevel, hends]
  · simp only [hlevel, hends, lookup_set, ne_eq, not_true_eq_false, not_false_eq_true, if_true, if_false]
    split_ifs with h₁ h₂ <;> first | rfl | simp_all
  · simp only [hlevel, hends, lookup_set, ne_eq, not_true_eq_false, not_false_eq_true, if_true, if_false]
    split_ifs <;> rfl
  · simp only [hlevel, hends, lookup_set, ne_eq, not_false_eq_true, if_true, if_false]
    split_ifs with h₁ h₂ <;> first | rfl | simp_all

theorem lookup_loadAll (environ : List (String × String)) (t : TargetConfig) (global : Koanf) (key : String) :
    (loadAll lower o environ t global).lookup key =
      (o.overrides.lookup key).or (((envProvider lower environ).lookup key).or ((fieldLayer o key).or
        ((levelLayer t key).or ((t.defaults.layer.lookup key).or (global.lookup key))))) := by
  have hoverrides : ∀ k : Koanf, (if 0 < o.overrides.size then k.load o.overrides else k).lookup key =
      (o.overrides.lookup key).or (k.lookup key) := by
    intro k
    split_ifs with hsize
    · exact lookup_load k o.overrides key
    · have hkeys : o.overrides.keys = [] := List.length_eq_zero_iff.mp (Nat.eq_zero_of_not_pos hsize)
      have hnone : o.overrides.lookup key = none := by
        rw [AList.lookup_eq_none]
        intro hmem
        rw [AList.mem_keys, hkeys] at hmem
        cases hmem
      rw [hnone]
      rfl
  unfold loadAll
  dsimp only
  rw [hoverrides, lookup_load, lookup_setFields, lookup_setLevel, lookup_load]

theorem lookup_defaults (d : Defaults) (key : String) : d.layer.lookup key =
    if key = "connections" then some (.int d.connections)
    else if key = "duration" then some (.duration d.duration)
    else if key = "warmup" then some (.duration d.warmup)
    else none := by
  unfold Defaults.layer
  rw [Map.lookup_insert_eq, Map.lookup_insert_eq, Map.lookup_insert_eq]
  rfl

theorem mapTarget_ok {ty : TargetYaml} {t : TargetConfig} (h : mapTarget parse ty = .ok t) :
    t.defaults.connections = ty.connections.getD 0 ∧
      parseDuration parse (ty.warmup.getD "") "warmup" = .ok t.defaults.warmup ∧
      parseDuration parse (ty.duration.getD "") "duration" = .ok t.defaults.duration ∧
      t.consistency = ty.consistency := by
  obtain ⟨warmup, hwarmup, h⟩ := except_bind_eq_ok.mp h
  obtain ⟨duration, hduration, h⟩ := except_bind_eq_ok.mp h
  cases h
  exact ⟨rfl, hwarmup, hduration, rfl⟩

theorem resolveSettings_ok {G : Getters} {t : TargetConfig} {s : Settings}
    (h : resolveSettings G lower o src t = .ok s) :
    ∃ global : Koanf, (∀ key, global.lookup key = globalLayer o src key) ∧
      s = readSettings G (loadAll lower o src.environ t global) := by
  unfold resolveSettings at h
  unfold globalLayer
  split_ifs at h with hpath
  · cases h
    exact ⟨∅, fun key => by rw [if_pos hpath]; rfl, rfl⟩
  · cases hglobal : src.global with
    | error e => rw [hglobal] at h; cases h
    | ok global =>
        rw [hglobal] at h
        cases h
        exact ⟨global, fun key => by rw [if_neg hpath]; rfl, rfl⟩

theorem resolve_ok {G : Getters} {r : Resolved} (h : resolve G lower parse o src = .ok r) :
    ∃ (ty : TargetYaml) (t : TargetConfig) (global : Koanf) (s : Settings), src.target = .ok ty ∧
      mapTarget parse ty = .ok t ∧ (∀ key, global.lookup key = globalLayer o src key) ∧
      s = readSettings G (loadAll lower o src.environ t global) ∧ r.driver = ⟨s.endpoints, s.consistency⟩ ∧
      r.manifest = ⟨s.rate, s.duration, s.warmup, s.connections, s.consistency⟩ := by
  obtain ⟨ty, hty, h⟩ := except_bind_eq_ok.mp h
  obtain ⟨t, ht, h⟩ := except_bind_eq_ok.mp h
  obtain ⟨wf, -, h⟩ := except_bind_eq_ok.mp h
  obtain ⟨w, -, h⟩ := except_bind_eq_ok.mp h
  obtain ⟨s, hs, h⟩ := except_bind_eq_ok.mp h
  obtain ⟨global, hglobal, hread⟩ := resolveSettings_ok hs
  cases h
  exact ⟨ty, t, global, s, hty, ht, hglobal, hread, rfl, rfl⟩

end Code

/-! ## Where the orders differ -/

section Orders
variable {β : Type} {get : Value → β} {zero : β}

/-- A default that is loaded even if it is not set hides the lowest layer, unless that reads as nothing itself. -/
theorem unset_default_iff (a b c g : Option Value) {d : Value} (hset : ∀ v, c = some v → get d = get v)
    (hunset : c = none → get d = zero) :
    ((a.or (b.or ((some d).or g))).map get).getD zero = ((highest [a, b, c, g]).map get).getD zero ↔
      a.isSome ∨ b.isSome ∨ c.isSome ∨ (g.map get).getD zero = zero := by
  cases a with
  | some v => simp [highest]
  | none =>
      cases b with
      | some v => simp [highest]
      | none =>
          cases c with
          | some v => simpa [highest] using hset v rfl
          | none =>
              cases g with
              | some w => simp [highest, hunset rfl, eq_comm]
              | none => simp [highest, hunset rfl]

/-- A layer `e` that is asked in front of a higher layer `f` hides it, unless it reads the same. -/
theorem swapped_iff (a e f c g : Option Value) :
    ((a.or (e.or (f.or (c.or g)))).map get).getD zero = ((highest [a.or f, e, c, g]).map get).getD zero ↔
      a.isSome ∨ ∀ v w, e = some v → f = some w → get v = get w := by
  cases a with
  | some v => simp [highest]
  | none =>
      cases e with
      | none => cases f <;> cases c <;> cases g <;> simp [highest]
      | some v => cases f <;> simp [highest]

end Orders

/-- A duration of the target file is the loaded one; one that is not set is loaded as no time. -/
theorem duration_layer {parse : String → Except String Int} {text : Option String} {field : String} {d : Int}
    (h : parseDuration parse (text.getD "") field = .ok d) :
    (text.bind fun s => (parseDuration parse s field).toOption.map Value.duration) = text.map (fun _ => .duration d) ∧
      (text = none → d = 0) := by
  cases text with
  | none =>
      cases h
      exact ⟨rfl, fun _ => rfl⟩
  | some s =>
      refine ⟨?_, fun hnone => by cases hnone⟩
      rw [Option.getD_some] at h
      rw [Option.bind_some, h]
      rfl

section Keys
variable {lower : String → String} {parse : String → Except String Int} {o : ResolveOptions} {src : Sources}
  {t : TargetConfig} {global : Koanf} {β : Type} {get : Value → β} {zero : β} {key : String}

theorem default_key_iff {d : Value} (hglobal : ∀ key, global.lookup key = globalLayer o src key)
    (hfield : fieldLayer o key = none) (hlevel : levelLayer t key = none)
    (hdefault : t.defaults.layer.lookup key = some d) (hset : ∀ v, targetLayer parse src key = some v → get d = get v)
    (hunset : targetLayer parse src key = none → get d = zero) :
    (((loadAll lower o src.environ t global).lookup key).map get).getD zero =
        ((documented lower parse o src key).map get).getD zero ↔
      (cliLayer o key).isSome ∨ (envLayer lower src key).isSome ∨ (targetLayer parse src key).isSome ∨
        ((globalLayer o src key).map get).getD zero = zero := by
  have hcli : cliLayer o key = o.overrides.lookup key := by
    unfold cliLayer
    rw [hfield, Option.or_none]
  unfold documented
  rw [lookup_loadAll, hfield, hlevel, hdefault, hglobal, Option.none_or, Option.none_or, hcli]
  exact unset_default_iff _ _ _ _ hset hunset

theorem duration_key_iff (G : Getters) {text : Option String} {d : Int}
    (hglobal : ∀ key, global.lookup key = globalLayer o src key) (hfield : fieldLayer o key = none)
    (hlevel : levelLayer t key = none) (hdefault : t.defaults.layer.lookup key = some (.duration d))
    (htarget : targetLayer parse src key =
      text.bind fun s => (parseDuration parse s key).toOption.map Value.duration)
    (hparse : parseDuration parse (text.getD "") key = .ok d) :
    (((loadAll lower o src.environ t global).lookup key).map G.duration).getD 0 =
        ((documented lower parse o src key).map G.duration).getD 0 ↔
      (cliLayer o key).isSome ∨ (envLayer lower src key).isSome ∨ (targetLayer parse src key).isSome ∨
        ((globalLayer o src key).map G.duration).getD 0 = 0 := by
  obtain ⟨hlayer, hzero⟩ := duration_layer hparse
  rw [hlayer] at htarget
  apply default_key_iff hglobal hfield hlevel hdefault
  · intro v hv
    rw [htarget] at hv
    obtain ⟨_, -, rfl⟩ := Option.map_eq_some_iff.mp hv
    rfl
  · intro hnone
    rw [htarget, Option.map_eq_none_iff] at hnone
    exact (G.duration_duration _).trans (hzero hnone)

theorem field_key_iff (hglobal : ∀ key, global.lookup key = globalLayer o src key)
    (hdefault : t.defaults.layer.lookup key = none) (htarget : targetLayer parse src key = levelLayer t key) :
    (((loadAll lower o src.environ t global).lookup key).map get).getD zero =
        ((documented lower parse o src key).map get).getD zero ↔
      (o.overrides.lookup key).isSome ∨ ∀ v w, envLayer lower src key = some v → fieldLayer o key = some w →
        get v = get w := by
  unfold documented cliLayer
  rw [lookup_loadAll, hdefault, hglobal, Option.none_or, htarget]
  exact swapped_iff _ _ _ _ _

end Keys

section Precedence
variable (G : Getters) (lower : String → String) (parse : String → Except String Int) (o : ResolveOptions)
  (src : Sources) (r : Resolved)

/-- **Where the precedence of the layers holds.** In a resolved configuration, a setting is the value of the highest
layer that sets it, in the order command line, environment, target file, global file, exactly if:
* for the connections and the durations: one of the upper three layers sets it, or the global file gives nothing (a
  default that the target file does not set is loaded over the global file as zero);
* for the consistency level and the endpoints: an override sets it, or the field of the options is empty, or the
  environment does not give another value (the environment is loaded over these fields). -/
theorem resolve_precedence_iff (h : resolve G lower parse o src = .ok r) :
    (r.manifest.connections = ((documented lower parse o src "connections").map G.int).getD 0 ↔
      (cliLayer o "connections").isSome ∨ (envLayer lower src "connections").isSome ∨
        (targetLayer parse src "connections").isSome ∨ ((globalLayer o src "connections").map G.int).getD 0 = 0) ∧
    (r.manifest.duration = ((documented lower parse o src "duration").map G.duration).getD 0 ↔
      (cliLayer o "duration").isSome ∨ (envLayer lower src "duration").isSome ∨
        (targetLayer parse src "duration").isSome ∨ ((globalLayer o src "duration").map G.duration).getD 0 = 0) ∧
    (r.manifest.warmup = ((documented lower parse o src "warmup").map G.duration).getD 0 ↔
      (cliLayer o "warmup").isSome ∨ (envLayer lower src "warmup").isSome ∨
        (targetLayer parse src "warmup").isSome ∨ ((globalLayer o src "warmup").map G.duration).getD 0 = 0) ∧
    (r.driver.consistency = ((documented lower parse o src "consistency").map G.string).getD "" ↔
      (o.overrides.lookup "consistency").isSome ∨ o.consistency = "" ∨
        ∀ v, envLayer lower src "consistency" = some v → G.string v = o.consistency) ∧
    (r.driver.endpoints = ((documented lower parse o src "endpoints").map G.strings).getD [] ↔
      (o.overrides.lookup "endpoints").isSome ∨ o.endpoints = [] ∨
        ∀ v, envLayer lower src "endpoints" = some v → G.strings v = o.endpoints) ∧
    r.manifest.consistency = r.driver.consistency := by
  obtain ⟨ty, t, global, s, hty, ht, hglobal, hs, hdriver, hmanifest⟩ := resolve_ok h
  obtain ⟨hconns, hwarmup, hduration, hlevels⟩ := mapTarget_ok ht
  have htarget : ∀ key, targetLayer parse src key = ty.layer parse key := by
    intro key
    unfold targetLayer
    rw [hty]
    rfl
  have hconnections : targetLayer parse src "connections" = ty.connections.map .int := htarget _
  rw [hmanifest, hdriver, hs]
  refine ⟨?_, ?_, ?_, ?_, ?_, rfl⟩
  · refine default_key_iff hglobal rfl rfl (lookup_defaults _ _) ?_ ?_
    · intro v hv
      rw [hconnections] at hv
      obtain ⟨n, hn, rfl⟩ := Option.map_eq_some_iff.mp hv
      rw [hconns, hn]
      rfl
    · intro hnone
      rw [hconnections, Option.map_eq_none_iff] at hnone
      rw [hconns, hnone]
      exact G.int_int 0
  · exact duration_key_iff G hglobal rfl rfl (lookup_defaults _ _) (htarget _) hduration
  · exact duration_key_iff G hglobal rfl rfl (lookup_defaults _ _) (htarget _) hwarmup
  · refine (field_key_iff hglobal (lookup_defaults _ _) ?_).trans (or_congr_right ?_)
    · rw [htarget, levelLayer, hlevels]
      rfl
    · by_cases hempty : o.consistency = ""
      · simp [fieldLayer, hempty]
      · simp [fieldLayer, hempty, G.string_string]
  · refine (field_key_iff hglobal (lookup_defaults _ _) ?_).trans (or_congr_right ?_)
    · rw [htarget]
      rfl
    · by_cases hempty : o.endpoints = []
      · simp [fieldLayer, hempty]
      · simp [fieldLayer, hempty, G.strings_strings]

end Precedence

/-! ## Two files and an environment -/

/-- Conversions that accept only the wanted type. -/
def plainGetters : Getters where
  int v := match v with
    | .int n => n
    | _ => 0
  duration v := match v with
    | .duration ns => ns
    | _ => 0
  string v := match v with
    | .string s => s
    | _ => ""
  strings v := match v with
    | .strings l => l
    | _ => []
  int_int _ := rfl
  duration_duration _ := rfl
  string_string _ := rfl
  strings_strings _ := rfl

def asciiLower (s : String) : String := String.ofList (s.toList.map Char.toLower)

/-- Sixteen connections in the global file, and a target file that gives `connections` or not. -/
def sixteenConnections (connections : Option Int) (environ : List (String × String)) : Sources where
  global := .ok ((∅ : Koanf).insert "connections" (.int 16))
  target := .ok ⟨connections, none, none, []⟩
  workload := .ok ⟨"kv", "performance", 100, "uniform", 8, "", [⟨"read", 1⟩], ∅⟩
  environ := environ

def noDurations (_ : String) : Except String Int := .error "no duration"

/-- The sixteen connections of the global file are lost to a target file that gives none; a consistency level of the
command line is lost to the environment. -/
theorem layers_out_of_order :
    (∃ r, resolve plainGetters asciiLower noDurations ⟨"proofload.yaml", [], "", ∅⟩ (sixteenConnections none []) =
        .ok r ∧ r.manifest.connections = 0 ∧
      documented asciiLower noDurations ⟨"proofload.yaml", [], "", ∅⟩ (sixteenConnections none []) "connections" =
        some (.int 16)) ∧
    ∃ r, resolve plainGetters asciiLower noDurations ⟨"", [], "quorum", ∅⟩
        (sixteenConnections none [("PROOFLOAD_CONSISTENCY", "one")]) = .ok r ∧ r.driver.consistency = "one" ∧
      documented asciiLower noDurations ⟨"", [], "quorum", ∅⟩
        (sixteenConnections none [("PROOFLOAD_CONSISTENCY", "one")]) "consistency" = some (.string "quorum") := by
  refine ⟨⟨_, rfl, by decide +kernel, by decide +kernel⟩, ⟨_, rfl, by decide +kernel, by decide +kernel⟩⟩

theorem resolve_precedence_iff_on_target_default :
    ∃ r, resolve plainGetters asciiLower noDurations ⟨"proofload.yaml", [], "", ∅⟩ (sixteenConnections (some 64) []) =
        .ok r ∧
      r.manifest.connections = ((documented asciiLower noDurations ⟨"proofload.yaml", [], "", ∅⟩
        (sixteenConnections (some 64) []) "connections").map plainGetters.int).getD 0 := by
  refine ⟨_, rfl, ?_⟩
  refine (resolve_precedence_iff plainGetters asciiLower noDurations ⟨"proofload.yaml", [], "", ∅⟩
    (sixteenConnections (some 64) []) _ rfl).1.mpr ?_
  exact Or.inr (Or.inr (Or.inl rfl))

example : (envProvider asciiLower [("PROOFLOAD_ENDPOINTS", "a:1,b:2"), ("HOME", "x")]).lookup "endpoints" =
    some (.strings ["a:1", "b:2"]) := by decide +kernel

end Proofload.Config
