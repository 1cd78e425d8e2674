import Mathlib.Data.List.Basic
import Mathlib.Tactic.TypeStar

/-!
# Functions with deferred calls

An `Act` works on a state and may fail; a `Body` may besides put calls off until the function returns, on whichever
path that is. `Body.scope` is a call of the function: the body, then the deferred calls, the last one first. `Meets`
are pre- and postconditions, with a postcondition for the result and one for the error.

* `Act.Meets.bind` : acts in sequence;
* `Body.Meets.act` : an act, and what follows if it succeeds;
* `Body.Meets.defer` : the postcondition of what follows is a precondition of the deferred call.
-/

namespace Lib

set_option autoImplicit false

variable {δ σ α β : Type}

/-- A computation on a state that ends in a result or an error. -/
def Act (σ α : Type) := σ → Except String α × σ

namespace Act

def bind (m : Act σ α) (k : α → Act σ β) : Act σ β := fun s =>
  match m s with
  | (.ok a, t) => k a t
  | (.error e, t) => (.error e, t)

instance : Monad (Act σ) where
  pure a := fun s => (.ok a, s)
  bind := bind

def fail (e : String) : Act σ α := fun s => (.error e, s)

def update (g : σ → σ) : Act σ Unit := fun s => (.ok (), g s)

/-- A value that depends on the state. -/
def gets (g : σ → α) : Act σ α := fun s => (.ok (g s), s)

/-- The outcome of a call that does not touch the state. -/
def result (r : Except String α) : Act σ α := fun s => (r, s)

/-- The errors of `m` with a text in front. -/
def wrap (text : String) (m : Act σ α) : Act σ α := fun s =>
  match m s with
  | (.ok a, t) => (.ok a, t)
  | (.error e, t) => (.error (text ++ e), t)

/-- An error, if there is one. -/
def check : Option String → Act σ Unit
  | some e => fail e
  | none => pure ()

/-- From a state with `P`, a result comes with `Q` and an error with `E`. -/
def Meets (P : σ → Prop) (m : Act σ α) (Q : α → σ → Prop) (E : σ → Prop) : Prop :=
  ∀ s, P s → match m s with
    | (.ok a, t) => Q a t
    | (.error _, t) => E t

section Rules
variable {P P' : σ → Prop} {Q Q' : α → σ → Prop} {E E' : σ → Prop}

theorem Meets.pure {a : α} (h : ∀ s, P s → Q a s) : Meets P (Pure.pure a : Act σ α) Q E := h

theorem Meets.fail {e : String} (h : ∀ s, P s → E s) : Meets P (fail e : Act σ α) Q E := h

theorem Meets.update {g : σ → σ} {Q : Unit → σ → Prop} (h : ∀ s, P s → Q () (g s)) : Meets P (update g) Q E := h

theorem Meets.gets {g : σ → α} (h : ∀ s, P s → Q (g s) s) : Meets P (gets g) Q E := h

theorem Meets.result {r : Except String α} (hok : ∀ a, r = .ok a → ∀ s, P s → Q a s)
    (herr : ∀ e, r = .error e → ∀ s, P s → E s) : Meets P (result r) Q E := by
  intro s hs
  cases r with
  | error e => exact herr e rfl s hs
  | ok a => exact hok a rfl s hs

theorem Meets.check {err : Option String} {Q : Unit → σ → Prop} (hok : ∀ s, P s → Q () s) (herr : ∀ s, P s → E s) :
    Meets P (check err) Q E := by
  intro s hs
  cases err with
  | none => exact hok s hs
  | some e => exact herr s hs

theorem Meets.wrap {m : Act σ α} {text : String} (h : Meets P m Q E) : Meets P (m.wrap text) Q E := by
  intro s hs
  have hmeets := h s hs
  unfold Act.wrap
  split at hmeets <;> exact hmeets

theorem Meets.bind {m : Act σ α} {k : α → Act σ β} {Q : α → σ → Prop} {R : β → σ → Prop} (hm : Meets P m Q E)
    (hk : ∀ a, Meets (Q a) (k a) R E) : Meets P (m >>= k) R E := by
  intro s hs
  have hfirst := hm s hs
  show match Act.bind m k s with
    | (.ok b, t) => R b t
    | (.error _, t) => E t
  unfold Act.bind
  split at hfirst
  · exact hk _ _ hfirst
  · exact hfirst

theorem Meets.mono {m : Act σ α} (h : Meets P m Q E) (hP : ∀ s, P' s → P s) (hQ : ∀ a s, Q a s → Q' a s)
    (hE : ∀ s, E s → E' s) : Meets P' m Q' E' := by
  intro s hs
  have hmeets := h s (hP s hs)
  split at hmeets
  · exact hQ _ _ hmeets
  · exact hE _ hmeets

end Rules
end Act

/-- The body of a function: its outcome, the state it leaves and the calls it has deferred, in the order in which it
deferred them. -/
def Body (δ σ α : Type) := σ → Except String α × σ × List δ

namespace Body

def bind (p : Body δ σ α) (k : α → Body δ σ β) : Body δ σ β := fun s =>
  match p s with
  | (.ok a, t, ds) => ((k a t).1, (k a t).2.1, ds ++ (k a t).2.2)
  | (.error e, t, ds) => (.error e, t, ds)

instance : Monad (Body δ σ) where
  pure a := fun s => (.ok a, s, [])
  bind := bind

def act (m : Act σ α) : Body δ σ α := fun s => ((m s).1, (m s).2, [])

instance : MonadLift (Act σ) (Body δ σ) := ⟨act⟩

def defer (d : δ) : Body δ σ Unit := fun s => (.ok (), s, [d])

/-- A call of the function; `exec` executes a deferred call. -/
def scope (exec : δ → σ → σ) (p : Body δ σ α) (s : σ) : Except String α × σ :=
  ((p s).1, (p s).2.2.foldr exec (p s).2.1)

/-- A call of the function from a state with `P` ends in a state with `Q` for its outcome. -/
def Meets (exec : δ → σ → σ) (P : σ → Prop) (p : Body δ σ α) (Q : Except String α → σ → Prop) : Prop :=
  ∀ s, P s → Q (scope exec p s).1 (scope exec p s).2

variable {exec : δ → σ → σ} {P : σ → Prop} {Q : Except String β → σ → Prop}

theorem scope_act (m : Act σ α) (s : σ) : scope exec (act m : Body δ σ α) s = m s := rfl

theorem scope_act_bind (m : Act σ α) (k : α → Body δ σ β) (s : σ) :
    scope exec (act m >>= k) s =
      match m s with
      | (.ok a, t) => scope exec (k a) t
      | (.error e, t) => (.error e, t) := by
  show scope exec (Body.bind (act m) k) s = _
  unfold scope Body.bind act
  rcases hm : m s with ⟨e | a, t⟩
  · rfl
  · dsimp only
    rw [List.nil_append]

theorem scope_defer_bind (d : δ) (k : Unit → Body δ σ β) (s : σ) :
    scope exec (defer d >>= k) s = ((scope exec (k ()) s).1, exec d (scope exec (k ()) s).2) := rfl

theorem Meets.given {c : Prop} {p : Body δ σ β} (hp : c → Meets exec P p Q) : Meets exec (fun s => c ∧ P s) p Q :=
  fun s hs => hp hs.1 s hs.2

theorem Meets.pre {P' : σ → Prop} {p : Body δ σ β} (hp : Meets exec P p Q) (hP : ∀ s, P' s → P s) :
    Meets exec P' p Q :=
  fun s hs => hp s (hP s hs)

theorem Meets.act {m : Act σ α} {k : α → Body δ σ β} {R : α → σ → Prop} {E : σ → Prop} (hm : m.Meets P R E)
    (hk : ∀ a, Meets exec (R a) (k a) Q) (herr : ∀ e s, E s → Q (.error e) s) :
    Meets exec P (Body.act m >>= k) Q := by
  intro s hs
  have hfirst := hm s hs
  rw [scope_act_bind]
  split at hfirst
  · exact hk _ _ hfirst
  · exact herr _ _ hfirst

theorem Meets.last {m : Act σ β} {R : β → σ → Prop} {E : σ → Prop} (hm : m.Meets P R E)
    (hok : ∀ a s, R a s → Q (.ok a) s) (herr : ∀ e s, E s → Q (.error e) s) :
    Meets exec P (Body.act m) Q := by
  intro s hs
  have hlast := hm s hs
  rw [scope_act]
  rcases hrun : m s with ⟨e | b, t⟩ <;> rw [hrun] at hlast
  · exact herr _ _ hlast
  · exact hok _ _ hlast

theorem Meets.defer {d : δ} {k : Unit → Body δ σ β} {R : Except String β → σ → Prop}
    (hk : Meets exec P (k ()) R) (hd : ∀ r s, R r s → Q r (exec d s)) : Meets exec P (Body.defer d >>= k) Q := by
  intro s hs
  rw [scope_defer_bind]
  exact hd _ _ (hk s hs)

end Body
end Lib
