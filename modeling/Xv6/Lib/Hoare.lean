import Mathlib

/-!
# Weakest preconditions for programs with state and failure

A program is an `EStateM ε σ α`: it returns a value in a new state, or stops with an error *in a
state* — what a machine looks like when it stops matters (its disk survives). A specification
therefore has two postconditions, one for each way to end:

* `wp c s Q E` — run from `s`, the program `c` either returns with `Q` or stops with `E`.

Total correctness is the case `E := fun _ _ => False`; partial correctness is `E := fun _ _ => True`;
"no error of this kind" lies between the two. The rules follow the shape of `do` blocks: one for
each primitive and `wp.bind` for sequencing, which consumes the specification of the first program
and leaves the rest, so a proof about a program never unfolds the monad.
-/

namespace Lib

variable {ε σ α β : Type}

/-! ### Running a program one primitive at a time -/

lemma bind_run (c : EStateM ε σ α) (f : α → EStateM ε σ β) (s : σ) :
    (c >>= f) s = match c s with
      | .ok a s' => f a s'
      | .error e s' => .error e s' := rfl

lemma pure_run (a : α) (s : σ) : (Pure.pure a : EStateM ε σ α) s = .ok a s := rfl
lemma get_run (s : σ) : (get : EStateM ε σ σ) s = .ok s s := rfl
lemma set_run (s s' : σ) : (set s' : EStateM ε σ PUnit) s = .ok ⟨⟩ s' := rfl
lemma throw_run (e : ε) (s : σ) : (throw e : EStateM ε σ α) s = .error e s := rfl

lemma ite_run {b : Prop} [Decidable b] (c₁ c₂ : EStateM ε σ α) (s : σ) :
    (if b then c₁ else c₂) s = if b then c₁ s else c₂ s := by
  split <;> rfl

/-- The program has returned. -/
def isOk : EStateM.Result ε σ α → Bool
  | .ok _ _ => true
  | .error _ _ => false

/-! ### Weakest preconditions -/

/-- Run from `s`, the program `c` returns with `Q` or stops with `E`. -/
def wp (c : EStateM ε σ α) (s : σ) (Q : α → σ → Prop) (E : ε → σ → Prop) : Prop :=
  match c s with
  | .ok a s' => Q a s'
  | .error e s' => E e s'

variable {c : EStateM ε σ α} {f : α → EStateM ε σ β} {s : σ}
  {Q Q' : α → σ → Prop} {R : β → σ → Prop} {E E' : ε → σ → Prop}

@[simp] lemma wp_pure {a : α} : wp (pure a : EStateM ε σ α) s Q E ↔ Q a s := Iff.rfl
@[simp] lemma wp_throw {e : ε} : wp (throw e : EStateM ε σ α) s Q E ↔ E e s := Iff.rfl
@[simp] lemma wp_get {Q : σ → σ → Prop} : wp (get : EStateM ε σ σ) s Q E ↔ Q s s := Iff.rfl
@[simp] lemma wp_set {s' : σ} {Q : PUnit → σ → Prop} :
    wp (set s' : EStateM ε σ PUnit) s Q E ↔ Q ⟨⟩ s' := Iff.rfl

@[simp] lemma wp_bind : wp (c >>= f) s R E ↔ wp c s (fun a s' => wp (f a) s' R E) E := by
  unfold wp
  rw [bind_run]
  cases c s <;> rfl

@[simp] lemma wp_ite {b : Prop} [Decidable b] {c₁ c₂ : EStateM ε σ α} :
    wp (if b then c₁ else c₂) s Q E ↔ if b then wp c₁ s Q E else wp c₂ s Q E := by
  split <;> rfl

/-- A run that is known. -/
lemma wp.of_ok {a : α} {s' : σ} (hc : c s = .ok a s') (h : Q a s') : wp c s Q E := by
  unfold wp
  rwa [hc]

/-- What a specification says about a run that returns. -/
lemma wp.ok (h : wp c s Q E) {s' : σ} {a : α} (hc : c s = .ok a s') : Q a s' := by
  unfold wp at h
  rwa [hc] at h

/-- What a specification says about a run that stops. -/
lemma wp.error (h : wp c s Q E) {s' : σ} {e : ε} (hc : c s = .error e s') : E e s' := by
  unfold wp at h
  rwa [hc] at h

/-- A program that cannot stop returns. -/
lemma wp.returns (h : wp c s Q fun _ _ => False) : ∃ a s', c s = .ok a s' ∧ Q a s' := by
  cases hc : c s with
  | ok a s' => exact ⟨a, s', rfl, h.ok hc⟩
  | error e s' => exact (h.error hc).elim

/-- A specification of a program that returns holds without its failure case. -/
lemma wp.total (h : wp c s Q E) {a : α} {s' : σ} (hc : c s = .ok a s') : wp c s Q fun _ _ => False := by
  have := h.ok hc
  unfold wp
  rwa [hc]

lemma wp.mono (h : wp c s Q E) (hQ : ∀ a s', Q a s' → Q' a s') (hE : ∀ e s', E e s' → E' e s') :
    wp c s Q' E' := by
  cases hc : c s with
  | ok a s' =>
    have := hQ _ _ (h.ok hc)
    unfold wp
    rwa [hc]
  | error e s' =>
    have := hE _ _ (h.error hc)
    unfold wp
    rwa [hc]

lemma wp.imp (h : wp c s Q E) (hQ : ∀ a s', Q a s' → Q' a s') : wp c s Q' E :=
  h.mono hQ fun _ _ h => h

/-- Two specifications of one program. -/
lemma wp.and (h : wp c s Q E) (h' : wp c s Q' E') :
    wp c s (fun a s' => Q a s' ∧ Q' a s') fun e s' => E e s' ∧ E' e s' := by
  unfold wp at *
  cases hc : c s with
  | ok a s' | error e s' =>
    rw [hc] at h h'
    exact ⟨h, h'⟩

/-- Sequencing: consume the specification of the first program, go on from what it established. -/
lemma wp.bind (h : wp c s Q E') (hf : ∀ a s', Q a s' → wp (f a) s' R E)
    (hE : ∀ e s', E' e s' → E e s') : wp (c >>= f) s R E :=
  wp_bind.mpr (h.mono hf hE)

/-- Sequencing when both programs stop with the same. -/
lemma wp.seq (h : wp c s Q E) (hf : ∀ a s', Q a s' → wp (f a) s' R E) : wp (c >>= f) s R E :=
  h.bind hf fun _ _ h => h

/-- A loop over a list, with an invariant indexed by what is still to be done. -/
lemma wp.forM {ι : Type} {f : ι → EStateM ε σ PUnit} {I : List ι → σ → Prop}
    (h : ∀ x xs s, I (x :: xs) s → wp (f x) s (fun _ => I xs) E) :
    ∀ {xs : List ι} {s : σ}, I xs s → wp (xs.forM f) s (fun _ => I []) E := by
  intro xs
  induction xs with
  | nil => intro s hs; exact hs
  | cons x xs ih =>
    intro s hs
    exact (h x xs s hs).seq fun _ _ hs' => ih hs'

/-! ### Errors that do not occur -/

/-- The program does not stop with the error `e`, whatever the state. -/
def Avoids (e : ε) (c : EStateM ε σ α) : Prop :=
  ∀ s, wp c s (fun _ _ => True) fun e' _ => e' ≠ e

namespace Avoids

variable {e : ε}

lemma pure {a : α} : Avoids e (Pure.pure a : EStateM ε σ α) := fun _ => trivial

lemma get : Avoids e (MonadState.get : EStateM ε σ σ) := fun _ => trivial

lemma set {s' : σ} : Avoids e (MonadStateOf.set s' : EStateM ε σ PUnit) := fun _ => trivial

lemma throw {e' : ε} (h : e' ≠ e) : Avoids e (MonadExcept.throw e' : EStateM ε σ α) := fun _ => h

lemma bind (hc : Avoids e c) (hf : ∀ a, Avoids e (f a)) : Avoids e (c >>= f) := fun s =>
  wp.seq (hc s) fun a s' _ => hf a s'

lemma ite {b : Prop} [Decidable b] {c₁ c₂ : EStateM ε σ α} (h₁ : Avoids e c₁) (h₂ : Avoids e c₂) :
    Avoids e (if b then c₁ else c₂) := by
  split
  · exact h₁
  · exact h₂

lemma forM {ι : Type} {f : ι → EStateM ε σ PUnit} (h : ∀ x, Avoids e (f x)) (xs : List ι) :
    Avoids e (xs.forM f) := fun _ => wp.forM (I := fun _ _ => True) (fun x _ s _ => h x s) trivial

end Avoids

end Lib
