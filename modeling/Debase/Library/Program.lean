import Mathlib.Data.List.Forall2
import Mathlib.Logic.Basic
import Mathlib.Logic.Relation

/-!
# Programs that change a state and may throw

The code under verification is imperative: it changes a state, and any call may
end in an exception.  A `Program` is the function from the state before a call
to its outcome and the state after it.  The state survives an exception, as it
does in C++: what was done before the throw stays done.

Three kinds of rule are used by the developments built on this file:

* inversion rules (`bind_eq_ok`) take a run apart into the runs
  of its parts;
* `Keeps` is the frame judgment: whatever way a run ends, the states before and
  after it are related by a fixed preorder;
* `Ends` is the judgment about one run: it returns as one predicate says or
  throws as another one says; `Yields` says the same of every run.
-/

namespace Debase
namespace Library

/-- A program over the states `σ`: it returns a value or throws an exception,
and in both cases leaves a state. -/
def Program (σ ε α : Type) : Type := σ → Except ε α × σ

namespace Program

variable {σ ε α β γ : Type}

/-- Return a value and leave the state alone. -/
protected def pure (a : α) : Program σ ε α := fun s => (.ok a, s)

/-- Sequencing: an exception of the first program skips the second one. -/
protected def bind (x : Program σ ε α) (f : α → Program σ ε β) : Program σ ε β := fun s =>
  match x s with
  | (.ok a, s') => f a s'
  | (.error e, s') => (.error e, s')

/-- Throw an exception. -/
def fail (e : ε) : Program σ ε α := fun s => (.error e, s)

/-- Run `x`; when it throws, run the handler in the state the throw left. -/
def handle (x : Program σ ε α) (h : ε → Program σ ε α) : Program σ ε α := fun s =>
  match x s with
  | (.ok a, s') => (.ok a, s')
  | (.error e, s') => h e s'

/-- Read the state. -/
def read : Program σ ε σ := fun s => (.ok s, s)

/-- Replace the state. -/
def update (f : σ → σ) : Program σ ε Unit := fun s => (.ok (), f s)

/-- Run a program on a part of a larger state. -/
def zoom {τ : Type} (get : τ → σ) (set : σ → τ → τ) (x : Program σ ε α) : Program τ ε α :=
  fun t =>
    let (r, s) := x (get t)
    (r, set s t)

/-- A computation without effect that may throw. -/
def lift : Except ε α → Program σ ε α
  | .ok a => Program.pure a
  | .error e => fail e

instance : Monad (Program σ ε) where
  pure := Program.pure
  bind := Program.bind

private theorem id_map_run (x : Program σ ε α) : id <$> x = x := by
  funext s
  change Program.bind x (fun a => Program.pure (id a)) s = x s
  unfold Program.bind Program.pure
  rcases x s with ⟨_ | _, _⟩ <;> rfl

private theorem bind_assoc_run (x : Program σ ε α) (f : α → Program σ ε β)
    (g : β → Program σ ε γ) : x >>= f >>= g = x >>= fun a => f a >>= g := by
  funext s
  change Program.bind (Program.bind x f) g s =
    Program.bind x (fun a => Program.bind (f a) g) s
  unfold Program.bind
  rcases x s with ⟨_ | _, _⟩ <;> rfl

instance : LawfulMonad (Program σ ε) :=
  LawfulMonad.mk' _ id_map_run (fun _ _ => rfl) bind_assoc_run

@[simp] theorem pure_run (a : α) (s : σ) :
    (pure a : Program σ ε α) s = (.ok a, s) := rfl

@[simp] theorem fail_run (e : ε) (s : σ) :
    (fail e : Program σ ε α) s = (.error e, s) := rfl

@[simp] theorem read_run (s : σ) : (read : Program σ ε σ) s = (.ok s, s) := rfl

@[simp] theorem update_run (f : σ → σ) (s : σ) :
    (update f : Program σ ε Unit) s = (.ok (), f s) := rfl

@[simp] theorem lift_ok (a : α) : (lift (.ok a) : Program σ ε α) = pure a := rfl

@[simp] theorem lift_error (e : ε) : (lift (.error e) : Program σ ε α) = fail e := rfl

theorem bind_run_ok {x : Program σ ε α} {s s' : σ} {a : α} (h : x s = (.ok a, s'))
    (f : α → Program σ ε β) : (x >>= f) s = f a s' := by
  change Program.bind x f s = f a s'
  simp [Program.bind, h]

theorem bind_run_error {x : Program σ ε α} {s s' : σ} {e : ε} (h : x s = (.error e, s'))
    (f : α → Program σ ε β) : (x >>= f) s = (.error e, s') := by
  change Program.bind x f s = (.error e, s')
  simp [Program.bind, h]

/-- A sequence returns exactly when both parts return. -/
theorem bind_eq_ok {x : Program σ ε α} {f : α → Program σ ε β} {s s' : σ} {b : β} :
    (x >>= f) s = (.ok b, s') ↔
      ∃ a s₁, x s = (.ok a, s₁) ∧ f a s₁ = (.ok b, s') := by
  rcases hx : x s with ⟨e | a, s₁⟩
  · rw [bind_run_error hx]
    simp
  · rw [bind_run_ok hx]
    constructor
    · intro h
      exact ⟨a, s₁, rfl, h⟩
    · rintro ⟨a', s₁', heq, h⟩
      cases heq
      exact h

/-- What a sequence throws depends on what its second part throws. -/
theorem throws_bind_congr {x : Program σ ε α} {f : α → Program σ ε β} {g : α → Program σ ε γ}
    {e : ε} (h : ∀ a s, (f a s).1 = .error e ↔ (g a s).1 = .error e) (s : σ) :
    ((x >>= f) s).1 = .error e ↔ ((x >>= g) s).1 = .error e := by
  rcases hx : x s with ⟨e' | a, s₁⟩
  · rw [bind_run_error hx, bind_run_error hx]
    simp
  · rw [bind_run_ok hx, bind_run_ok hx]
    exact h a s₁

theorem lift_eq_ok {r : Except ε α} {s s' : σ} {a : α} :
    lift r s = (.ok a, s') ↔ r = .ok a ∧ s' = s := by
  cases r with
  | ok b => simp [Prod.ext_iff, eq_comm]
  | error e => simp

/-- A value of a successful `mapM` was returned by the program at its place, in the
state that the programs before it left. -/
theorem getElem?_of_mapM_ok {f : α → Program σ ε β} {l : List α} {bs : List β} {s s' : σ}
    (h : l.mapM f s = (.ok bs, s')) {i : Nat} {b : β} (hb : bs[i]? = some b) :
    ∃ a s₁ s₂, l[i]? = some a ∧ (l.take i).mapM f s = (.ok (bs.take i), s₁) ∧
      f a s₁ = (.ok b, s₂) := by
  induction l generalizing bs s i with
  | nil =>
      cases h
      simp at hb
  | cons a l ih =>
      rw [List.mapM_cons] at h
      obtain ⟨b', s₁, hfirst, hrest⟩ := bind_eq_ok.mp h
      obtain ⟨bs', s₂, hmap, hpure⟩ := bind_eq_ok.mp hrest
      cases hpure
      cases i with
      | zero =>
          rw [List.getElem?_cons_zero, Option.some.injEq] at hb
          subst hb
          exact ⟨a, s, s₁, rfl, rfl, hfirst⟩
      | succ i =>
          rw [List.getElem?_cons_succ] at hb
          obtain ⟨a', s₃, s₄, ha', hbefore, hrun⟩ := ih hmap hb
          refine ⟨a', s₃, s₄, ha', ?_, hrun⟩
          rw [List.take_succ_cons, List.mapM_cons, bind_run_ok hfirst, bind_run_ok hbefore,
            List.take_succ_cons]
          rfl

/-- Every program of a successful `mapM` returned one of its values. -/
theorem exists_of_mapM_ok {f : α → Program σ ε β} {l : List α} {bs : List β} {s s' : σ}
    (h : l.mapM f s = (.ok bs, s')) {a : α} (ha : a ∈ l) :
    ∃ b ∈ bs, ∃ s₁ s₂, f a s₁ = (.ok b, s₂) := by
  induction l generalizing bs s with
  | nil => simp at ha
  | cons a' l ih =>
      rw [List.mapM_cons] at h
      obtain ⟨b', s₁, hfirst, hrest⟩ := bind_eq_ok.mp h
      obtain ⟨bs', s₂, hmap, hpure⟩ := bind_eq_ok.mp hrest
      cases hpure
      rcases List.mem_cons.mp ha with rfl | ha
      · exact ⟨b', List.mem_cons_self, s, s₁, hfirst⟩
      · obtain ⟨b, hb, hrun⟩ := ih hmap ha
        exact ⟨b, List.mem_cons_of_mem _ hb, hrun⟩

/-! ## The frame judgment -/

/-- Whatever way a run of `x` ends, the states before and after it are related
by `R`. -/
def Keeps (R : σ → σ → Prop) (x : Program σ ε α) : Prop := ∀ s, R s (x s).2

namespace Keeps

variable {R : σ → σ → Prop}

theorem run {x : Program σ ε α} (h : Keeps R x) {s s' : σ} {r : Except ε α}
    (hx : x s = (r, s')) : R s s' := by
  have := h s
  rwa [hx] at this

theorem pure [Std.Refl R] (a : α) : Keeps R (pure a : Program σ ε α) :=
  fun s => refl_of R s

theorem fail [Std.Refl R] (e : ε) : Keeps R (fail e : Program σ ε α) :=
  fun s => refl_of R s

theorem lift [Std.Refl R] (r : Except ε α) : Keeps R (lift r : Program σ ε α) := by
  cases r with
  | ok a => exact pure a
  | error e => exact fail e

theorem bind [IsTrans σ R] {x : Program σ ε α} {f : α → Program σ ε β}
    (hx : Keeps R x) (hf : ∀ a, Keeps R (f a)) : Keeps R (x >>= f) := by
  intro s
  rcases h : x s with ⟨e | a, s₁⟩
  · rw [bind_run_error h]
    exact hx.run h
  · rw [bind_run_ok h]
    exact trans_of R (hx.run h) (hf a s₁)

theorem map [IsTrans σ R] [Std.Refl R] {x : Program σ ε α} (hx : Keeps R x) (f : α → β) :
    Keeps R (f <$> x) := by
  rw [map_eq_pure_bind]
  exact hx.bind fun a => pure (f a)

theorem update {f : σ → σ} (hf : ∀ s, R s (f s)) : Keeps R (update f : Program σ ε Unit) :=
  hf

/-- A program on a part of the state keeps what the part does not reach. -/
theorem zoom {τ : Type} {Q : τ → τ → Prop} {get : τ → σ} {set : σ → τ → τ}
    (hset : ∀ s t, Q t (set s t)) (x : Program σ ε α) : Keeps Q (x.zoom get set) := by
  intro t
  unfold Program.zoom
  exact hset _ _

theorem handle [IsTrans σ R] {x : Program σ ε α} {f : ε → Program σ ε α}
    (hx : Keeps R x) (hf : ∀ e, Keeps R (f e)) : Keeps R (x.handle f) := by
  intro s
  unfold Program.handle
  rcases h : x s with ⟨e | a, s₁⟩
  · exact trans_of R (hx.run h) (hf e s₁)
  · exact hx.run h

theorem mapM [IsTrans σ R] [Std.Refl R] {f : α → Program σ ε β} (hf : ∀ a, Keeps R (f a))
    (l : List α) : Keeps R (l.mapM f) := by
  induction l with
  | nil => exact pure []
  | cons a l ih =>
      rw [List.mapM_cons]
      exact (hf a).bind fun b => ih.bind fun bs => pure (b :: bs)

theorem foldlM [IsTrans σ R] [Std.Refl R] {f : β → α → Program σ ε β}
    (hf : ∀ b a, Keeps R (f b a)) (l : List α) (b : β) : Keeps R (l.foldlM f b) := by
  induction l generalizing b with
  | nil => exact pure b
  | cons a l ih => exact (hf b a).bind ih

end Keeps

/-! ## Programs that end in a program of a kind -/

/-- Every run of `x` either ends with an outcome in `Q`, or goes on as one of the
programs in `T`; the states up to there are related by `R`. -/
def HandsOver (R : σ → σ → Prop) (Q : Except ε α → Prop) (T : Program σ ε α → Prop)
    (x : Program σ ε α) : Prop :=
  ∀ s, (R s (x s).2 ∧ Q (x s).1) ∨ ∃ s₁ t, T t ∧ R s s₁ ∧ x s = t s₁

namespace HandsOver

variable {R : σ → σ → Prop} {Q : Except ε α → Prop} {T : Program σ ε α → Prop}

theorem of_mem [Std.Refl R] {x : Program σ ε α} (h : T x) : HandsOver R Q T x :=
  fun s => Or.inr ⟨s, x, h, refl_of R s, rfl⟩

theorem pure [Std.Refl R] {a : α} (h : Q (.ok a)) : HandsOver R Q T (pure a) :=
  fun s => Or.inl ⟨refl_of R s, h⟩

theorem fail [Std.Refl R] {e : ε} (h : Q (.error e)) : HandsOver R Q T (fail e) :=
  fun s => Or.inl ⟨refl_of R s, h⟩

theorem bind [IsTrans σ R] {x : Program σ ε β} {f : β → Program σ ε α} (hx : Keeps R x)
    (hQ : ∀ e, Q (.error e)) (hf : ∀ b s s', x s = (.ok b, s') → HandsOver R Q T (f b)) :
    HandsOver R Q T (x >>= f) := by
  intro s
  rcases h : x s with ⟨e | b, s₁⟩
  · rw [bind_run_error h]
    exact Or.inl ⟨hx.run h, hQ e⟩
  · rw [bind_run_ok h]
    rcases hf b s s₁ h s₁ with ⟨hR, hout⟩ | ⟨s₂, t, ht, hR, hrun⟩
    · exact Or.inl ⟨trans_of R (hx.run h) hR, hout⟩
    · exact Or.inr ⟨s₂, t, ht, trans_of R (hx.run h) hR, hrun⟩

end HandsOver

/-! ## One run -/

/-- The run of `x` from `s` returns with `Q` or throws with `E`. -/
def Ends (x : Program σ ε α) (s : σ) (Q : α → σ → Prop) (E : ε → σ → Prop) : Prop :=
  match x s with
  | (.ok a, s') => Q a s'
  | (.error e, s') => E e s'

namespace Ends

variable {s : σ} {Q : α → σ → Prop} {E : ε → σ → Prop}

theorem of_ok {x : Program σ ε α} (h : Ends x s Q E) {a : α} {s' : σ} (hx : x s = (.ok a, s')) :
    Q a s' := by
  unfold Ends at h
  rwa [hx] at h

theorem of_error {x : Program σ ε α} (h : Ends x s Q E) {e : ε} {s' : σ}
    (hx : x s = (.error e, s')) : E e s' := by
  unfold Ends at h
  rwa [hx] at h

theorem pure {a : α} (h : Q a s) : Ends (pure a) s Q E := h

theorem fail {e : ε} (h : E e s) : Ends (fail e) s Q E := h

theorem read {Q : σ → σ → Prop} (h : Q s s) : Ends read s Q E := h

theorem update {f : σ → σ} {Q : Unit → σ → Prop} (h : Q () (f s)) : Ends (update f) s Q E := h

/-- Nothing thrown by the first part is caught by the sequence. -/
theorem bind {x : Program σ ε β} {f : β → Program σ ε α}
    (h : Ends x s (fun b s' => Ends (f b) s' Q E) E) : Ends (x >>= f) s Q E := by
  rcases hx : x s with ⟨e | b, s'⟩
  · unfold Ends
    rw [bind_run_error hx]
    exact h.of_error hx
  · have hrest := h.of_ok hx
    unfold Ends at hrest ⊢
    rwa [bind_run_ok hx]

theorem mono {x : Program σ ε α} {Q' : α → σ → Prop} {E' : ε → σ → Prop} (h : Ends x s Q E)
    (hQ : ∀ a s', Q a s' → Q' a s') (hE : ∀ e s', E e s' → E' e s') : Ends x s Q' E' := by
  unfold Ends
  rcases hx : x s with ⟨e | a, s'⟩
  · exact hE e s' (h.of_error hx)
  · exact hQ a s' (h.of_ok hx)

/-- Two things that are known of one run. -/
theorem and {x : Program σ ε α} {Q' : α → σ → Prop} {E' : ε → σ → Prop} (h : Ends x s Q E)
    (h' : Ends x s Q' E') :
    Ends x s (fun a s' => Q a s' ∧ Q' a s') fun e s' => E e s' ∧ E' e s' := by
  unfold Ends
  rcases hx : x s with ⟨e | a, s'⟩
  · exact ⟨h.of_error hx, h'.of_error hx⟩
  · exact ⟨h.of_ok hx, h'.of_ok hx⟩

theorem handle {x : Program σ ε α} {g : ε → Program σ ε α}
    (h : Ends x s Q fun e s' => Ends (g e) s' Q E) : Ends (handle x g) s Q E := by
  unfold Ends Program.handle
  rcases hx : x s with ⟨e | a, s'⟩
  · exact h.of_error hx
  · exact h.of_ok hx

theorem zoom {τ : Type} {get : τ → σ} {set : σ → τ → τ} {t : τ} {x : Program σ ε α}
    {Q : α → τ → Prop} {E : ε → τ → Prop}
    (h : Ends x (get t) (fun a s' => Q a (set s' t)) fun e s' => E e (set s' t)) :
    Ends (x.zoom get set) t Q E := by
  unfold Ends Program.zoom
  rcases hx : x (get t) with ⟨e | a, s'⟩
  · exact h.of_error hx
  · exact h.of_ok hx

/-- What both outcomes say of the state alone. -/
theorem state {x : Program σ ε α} {P : σ → Prop} (h : Ends x s (fun _ s' => P s') fun _ s' => P s') :
    P (x s).2 := by
  rcases hx : x s with ⟨e | a, s'⟩
  · exact h.of_error hx
  · exact h.of_ok hx

end Ends

/-- What every run keeps, one run keeps. -/
theorem Keeps.ends {R : σ → σ → Prop} {x : Program σ ε α} (h : Keeps R x) (s : σ) :
    Ends x s (fun _ s' => R s s') fun _ s' => R s s' := by
  unfold Ends
  rcases hx : x s with ⟨e | a, s'⟩
  · exact h.run hx
  · exact h.run hx

/-! ## A run that returns -/

/-- If the run of `x` from `s` returns, it returns with `Q`. -/
def Returns (x : Program σ ε α) (s : σ) (Q : α → σ → Prop) : Prop :=
  Ends x s Q fun _ _ => True

namespace Returns

variable {s : σ} {Q : α → σ → Prop}

theorem of_ends {x : Program σ ε α} {E : ε → σ → Prop} (h : Ends x s Q E) : Returns x s Q :=
  h.mono (fun _ _ hQ => hQ) fun _ _ _ => trivial

theorem pure {a : α} (h : Q a s) : Returns (Pure.pure a : Program σ ε α) s Q := Ends.pure h

theorem fail {e : ε} : Returns (Program.fail e) s Q := Ends.fail trivial

theorem update {f : σ → σ} {Q : Unit → σ → Prop} (h : Q () (f s)) :
    Returns (Program.update f : Program σ ε Unit) s Q := Ends.update h

theorem mono {x : Program σ ε α} {Q' : α → σ → Prop} (h : Returns x s Q)
    (hQ : ∀ a s', Q a s' → Q' a s') : Returns x s Q' :=
  Ends.mono h hQ fun _ _ h => h

theorem bind {x : Program σ ε β} {f : β → Program σ ε α} {Q' : β → σ → Prop}
    (hx : Returns x s Q') (hf : ∀ b s', Q' b s' → Returns (f b) s' Q) :
    Returns (x >>= f) s Q :=
  Ends.bind (Ends.mono hx hf fun _ _ h => h)

theorem of_forall {x : Program σ ε α} (h : ∀ a s', Q a s') : Returns x s Q := by
  unfold Returns Ends
  split
  · exact h _ _
  · trivial

/-- What the last part establishes in every state, the sequence establishes. -/
theorem last {x : Program σ ε β} {f : β → Program σ ε α} (hf : ∀ b s', Returns (f b) s' Q) :
    Returns (x >>= f) s Q :=
  bind (of_forall (Q := fun _ _ => True) fun _ _ => trivial) fun b s' _ => hf b s'

/-- The rest is a run of its own after each run of the first part. -/
theorem bind_ends {x : Program σ ε β} {f : β → Program σ ε α}
    (h : Ends x s (fun b s' => Returns (f b) s' Q) fun _ _ => True) : Returns (x >>= f) s Q :=
  Ends.bind h

theorem read_bind {f : σ → Program σ ε α} (h : Returns (f s) s Q) :
    Returns (Program.read >>= f) s Q := Ends.bind (Ends.read h)

theorem update_bind {f : σ → σ} {g : Unit → Program σ ε α} (h : Returns (g ()) (f s) Q) :
    Returns (Program.update f >>= g) s Q := Ends.bind (Ends.update h)

/-- What is thrown is thrown again, as some other exception. -/
theorem handle {x : Program σ ε α} {g : ε → Program σ ε α} (h : Returns x s Q)
    (hg : ∀ e s', Returns (g e) s' Q) : Returns (Program.handle x g) s Q :=
  Ends.handle (Ends.mono h (fun _ _ hQ => hQ) fun e s' _ => hg e s')

theorem zoom {τ : Type} {get : τ → σ} {set : σ → τ → τ} {t : τ} {x : Program σ ε α}
    {Q : α → τ → Prop} (h : Returns x (get t) fun a s' => Q a (set s' t)) :
    Returns (x.zoom get set) t Q := Ends.zoom h

end Returns

/-! ## Every run -/

/-- Every run of `x` returns a value in `Q` or throws an exception in `E`. -/
def Yields (Q : α → Prop) (E : ε → Prop) (x : Program σ ε α) : Prop :=
  ∀ s, Ends x s (fun a _ => Q a) fun e _ => E e

namespace Yields

variable {Q : α → Prop} {E : ε → Prop} {x : Program σ ε α}

theorem of_ok (h : Yields Q E x) {s s' : σ} {a : α} (hx : x s = (.ok a, s')) : Q a :=
  Ends.of_ok (h s) hx

theorem of_error (h : Yields Q E x) {s s' : σ} {e : ε} (hx : x s = (.error e, s')) : E e :=
  Ends.of_error (h s) hx

/-- Every program yields something. -/
theorem trivial : Yields (fun _ => True) (fun _ => True) x := by
  intro s
  unfold Ends
  split
  · exact True.intro
  · exact True.intro

theorem pure {a : α} (h : Q a) : Yields Q E (pure a : Program σ ε α) := fun _ => Ends.pure h

theorem fail {e : ε} (h : E e) : Yields Q E (fail e : Program σ ε α) := fun _ => Ends.fail h

theorem read {Q : σ → Prop} (h : ∀ s, Q s) : Yields Q E (read : Program σ ε σ) :=
  fun s => Ends.read (h s)

theorem update {f : σ → σ} {Q : Unit → Prop} (h : Q ()) :
    Yields Q E (update f : Program σ ε Unit) := fun _ => Ends.update h

theorem lift {r : Except ε α} (hok : ∀ a, r = .ok a → Q a) (herror : ∀ e, r = .error e → E e) :
    Yields Q E (lift r : Program σ ε α) := by
  cases r with
  | ok a => exact pure (hok a rfl)
  | error e => exact fail (herror e rfl)

theorem bind {P : β → Prop} {y : Program σ ε β} {f : β → Program σ ε α} (hy : Yields P E y)
    (hf : ∀ b, P b → Yields Q E (f b)) : Yields Q E (y >>= f) := by
  intro s
  apply Ends.bind
  exact (hy s).mono (fun b s' hb => hf b hb s') fun _ _ he => he

theorem mono {Q' : α → Prop} {E' : ε → Prop} (h : Yields Q E x) (hQ : ∀ a, Q a → Q' a)
    (hE : ∀ e, E e → E' e) : Yields Q' E' x :=
  fun s => (h s).mono (fun a _ => hQ a) fun e _ => hE e

theorem zoom {τ : Type} {get : τ → σ} {set : σ → τ → τ} (h : Yields Q E x) :
    Yields Q E (x.zoom get set) := by
  intro t
  apply Ends.zoom
  exact h (get t)

theorem handle {g : ε → Program σ ε α} {F : ε → Prop} (h : Yields Q F x)
    (hg : ∀ e, F e → Yields Q E (g e)) : Yields Q E (x.handle g) := by
  intro s
  apply Ends.handle
  exact (h s).mono (fun _ _ ha => ha) fun e s' he => hg e he s'

theorem mapM {f : β → Program σ ε α} {P : β → α → Prop} (l : List β)
    (hf : ∀ b ∈ l, Yields (P b) E (f b)) : Yields (List.Forall₂ P l) E (l.mapM f) := by
  induction l with
  | nil => exact pure .nil
  | cons b l ih =>
      rw [List.mapM_cons]
      refine (hf b List.mem_cons_self).bind fun a ha => ?_
      refine (ih fun b hb => hf b (List.mem_cons_of_mem _ hb)).bind fun as has => ?_
      exact pure (.cons ha has)

/-- The rule for a loop over a list: the invariant speaks about the elements that
are left. -/
theorem foldlM {f : α → β → Program σ ε α} {I : List β → α → Prop}
    (hf : ∀ b l a, I (b :: l) a → Yields (I l) E (f a b)) (l : List β) {a : α} (ha : I l a) :
    Yields (I []) E (l.foldlM f a) := by
  induction l generalizing a with
  | nil => exact pure ha
  | cons b l ih =>
      rw [List.foldlM_cons]
      exact (hf b l a ha).bind fun a' ha' => ih ha'

end Yields

/-- A sequence hands over where its second part does, if the exceptions of the first
part are outcomes of the kind. -/
theorem HandsOver.bind_of_yields {R : σ → σ → Prop} {Q : Except ε α → Prop}
    {T : Program σ ε α → Prop} [IsTrans σ R] {x : Program σ ε β} {f : β → Program σ ε α}
    {P : β → Prop} {E : ε → Prop} (hx : Keeps R x) (hyields : Yields P E x)
    (hQ : ∀ e, E e → Q (.error e)) (hf : ∀ b, P b → HandsOver R Q T (f b)) :
    HandsOver R Q T (x >>= f) := by
  intro s
  rcases h : x s with ⟨e | b, s₁⟩
  · rw [bind_run_error h]
    exact Or.inl ⟨hx.run h, hQ e (hyields.of_error h)⟩
  · rw [bind_run_ok h]
    rcases hf b (hyields.of_ok h) s₁ with ⟨hR, hout⟩ | ⟨s₂, t, ht, hR, hrun⟩
    · exact Or.inl ⟨trans_of R (hx.run h) hR, hout⟩
    · exact Or.inr ⟨s₂, t, ht, trans_of R (hx.run h) hR, hrun⟩

end Program
end Library
end Debase
