import Mathlib.Logic.Function.Basic

/-! Programs over an explicit state that may throw, and runs of a step function.
A thrown exception keeps the state reached so far: whatever was changed before the
throw stays changed. -/
namespace Rucbase.Lib

/-- A call that reads and changes `σ` and returns an `α` or throws an `ε`. -/
def Prog (σ ε α : Type) : Type := σ → Except ε α × σ

namespace Prog

variable {σ ε α β : Type}

/-- Sequencing: the continuation runs only if the first part did not throw. -/
def andThen (x : Prog σ ε α) (f : α → Prog σ ε β) : Prog σ ε β := fun s =>
  match x s with
  | (.ok a, next) => f a next
  | (.error e, next) => (.error e, next)

instance : Monad (Prog σ ε) where
  pure a := fun s => (.ok a, s)
  bind := andThen

def state : Prog σ ε σ := fun s => (.ok s, s)

def update (f : σ → σ) : Prog σ ε Unit := fun s => (.ok (), f s)

def raise (e : ε) : Prog σ ε α := fun s => (.error e, s)

/-- An assertion of the source: a failed one raises `e`. -/
def check (holds : Bool) (e : ε) : Prog σ ε Unit := if holds then pure () else raise e

/-- The state after a call, whether it returned or threw. -/
def after (x : Prog σ ε α) (s : σ) : σ := (x s).2

@[simp] theorem pure_run (a : α) (s : σ) : (pure a : Prog σ ε α) s = (.ok a, s) := rfl

theorem bind_run (x : Prog σ ε α) (f : α → Prog σ ε β) (s : σ) :
    (x >>= f) s = match x s with
      | (.ok a, next) => f a next
      | (.error e, next) => (.error e, next) := rfl

@[simp] theorem state_run (s : σ) : (state : Prog σ ε σ) s = (.ok s, s) := rfl
@[simp] theorem update_run (f : σ → σ) (s : σ) : (update f : Prog σ ε Unit) s = (.ok (), f s) := rfl
@[simp] theorem raise_run (e : ε) (s : σ) : (raise e : Prog σ ε α) s = (.error e, s) := rfl

theorem check_run {holds : Bool} (fine : holds = true) (e : ε) (s : σ) :
    (check holds e : Prog σ ε Unit) s = (.ok (), s) := by
  simp [check,fine]

variable {x : Prog σ ε α} {f : α → Prog σ ε β} {s next : σ} {a : α} {e : ε} {result : Except ε α} {R S T : σ → σ → Prop}

theorem bind_ok (first : x s = (.ok a, next)) : (x >>= f) s = f a next := by
  rw [bind_run,first]

theorem bind_error (first : x s = (.error e, next)) : (x >>= f) s = (.error e, next) := by
  rw [bind_run,first]

theorem bind_same {x y : Prog σ ε α} (same : x s = y s) : (x >>= f) s = (y >>= f) s := by
  rw [bind_run,same]
  rfl

theorem bind_assoc {γ : Type} (x : Prog σ ε α) (f : α → Prog σ ε β) (g : β → Prog σ ε γ) :
    (x >>= f) >>= g = x >>= fun a => f a >>= g := by
  funext s
  simp only [bind_run]
  match x s with
  | (.ok a, next) => rfl
  | (.error e, next) => rfl

theorem bind_pure (x : Prog σ ε α) : x >>= pure = x := by
  funext s
  simp only [bind_run]
  match x s with
  | (.ok a, next) => rfl
  | (.error e, next) => rfl

theorem bind_congr {f g : α → Prog σ ε β} (same : ∀ a, f a = g a) : x >>= f = x >>= g := by
  rw [funext same]

theorem bind_ok_split {s final : σ} {b : β} (whole : (x >>= f) s = (.ok b, final)) :
    ∃ a next, x s = (.ok a, next) ∧ f a next = (.ok b, final) := by
  rw [bind_run] at whole
  match first : x s with
  | (.ok a, next) => exact ⟨a,next,rfl,by simpa [first] using whole⟩
  | (.error e, next) => simp [first] at whole

theorem ok_unique {s t u : σ} {a b : α} (first : x s = (.ok a, t)) (second : x s = (.ok b, u)) : a = b :=
  Except.ok.inj (Prod.mk.inj (first.symm.trans second)).1

theorem after_eq (run : x s = (result, next)) : x.after s = next := by
  rw [after,run]

theorem bind_after {P : σ → Prop} (first : P (x.after s))
    (rest : ∀ a next, x s = (.ok a, next) → P ((f a).after next)) : P ((x >>= f).after s) := by
  rw [after,bind_run]
  match run : x s with
  | (.ok a, next) => exact rest a next run
  | (.error e, next) => rwa [after_eq run] at first

theorem run_isOk (fine : (x s).1.isOk = true) :
    ∃ a next, x s = (.ok a, next) := by
  match run : x s with
  | (.ok a, next) => exact ⟨a,next,rfl⟩
  | (.error e, next) => simp [run,Except.isOk,Except.toBool] at fine

/-- Every run of the call, returning or throwing, relates its two states. -/
def Within (R : σ → σ → Prop) (x : Prog σ ε α) : Prop := ∀ s, R s (x.after s)

theorem Within.ran (within : Within R x) (run : x s = (result, next)) : R s next := by
  have step := within s
  rwa [after,run] at step

/-- Sequencing when the two parts keep different relations: a throw in the first part and
the two parts together both have to meet the relation of the whole. -/
theorem Within.seq (first : Within R x) (rest : ∀ a, Within S (f a)) (thrown : ∀ s next, R s next → T s next)
    (both : ∀ s next final, R s next → S next final → T s final) : Within T (x >>= f) := fun s =>
  bind_after (P := T s) (thrown s _ (first s)) fun a next run => both s next _ (first.ran run) (rest a next)

/-- Sequencing when the second part is looked at after each way the first one returns. -/
theorem Within.seq_call (first : Within T x) (rest : ∀ s a next, x s = (.ok a, next) → T s ((f a).after next)) :
    Within T (x >>= f) := fun s =>
  bind_after (first s) (rest s)

theorem Within.seq_ok (first : Within T x) (rest : ∀ a, Within S (f a))
    (both : ∀ s a next final, x s = (.ok a, next) → S next final → T s final) : Within T (x >>= f) :=
  first.seq_call fun s a next run => both s a next _ run (rest a next)

/-- A relation that a sequence of calls may keep. -/
structure Frame (R : σ → σ → Prop) : Prop where
  refl : ∀ s, R s s
  trans : ∀ s next final, R s next → R next final → R s final

section Frames

variable (frame : Frame R)

include frame

theorem Frame.pure (a : α) : Within R (Pure.pure a : Prog σ ε α) := fun s => frame.refl s

theorem Frame.state : Within R (Prog.state : Prog σ ε σ) := fun s => frame.refl s

theorem Frame.raise (e : ε) : Within R (Prog.raise e : Prog σ ε α) := fun s => frame.refl s

theorem Frame.bind (first : Within R x) (rest : ∀ a, Within R (f a)) : Within R (x >>= f) :=
  first.seq rest (fun _ _ step => step) frame.trans

theorem Frame.check (holds : Bool) (e : ε) : Within R (Prog.check holds e : Prog σ ε Unit) := by
  unfold Prog.check
  cases holds
  · exact frame.raise e
  · exact frame.pure ()

end Frames

theorem Within.update {f : σ → σ} (change : ∀ s, R s (f s)) :
    Within R (Prog.update f : Prog σ ε Unit) := change

/-- The call returns with `post`, unless it throws an `excused` exception. -/
def Ends (excused : ε → Prop) (post : α → σ → Prop) (x : Prog σ ε α) (s : σ) : Prop :=
  match x s with
  | (.ok a, next) => post a next
  | (.error e, _) => excused e

section Ends

variable {excused : ε → Prop} {post : α → σ → Prop}

theorem Ends.of_ok (run : x s = (.ok a, next)) (holds : post a next) : Ends excused post x s := by
  rw [Ends,run]
  exact holds

theorem Ends.of_error (run : x s = (.error e, next)) (holds : excused e) : Ends excused post x s := by
  rw [Ends,run]
  exact holds

theorem Ends.bind {final : β → σ → Prop} (first : Ends excused post x s)
    (rest : ∀ a next, post a next → Ends excused final (f a) next) : Ends excused final (x >>= f) s := by
  rw [Ends] at first
  match run : x s with
  | (.ok a, next) =>
    rw [run] at first
    rw [Ends,bind_ok run]
    exact rest a next first
  | (.error e, next) =>
    rw [run] at first
    rw [Ends,bind_error run]
    exact first

theorem Ends.step {final : β → σ → Prop} (run : x s = (.ok a, next)) (rest : Ends excused final (f a) next) :
    Ends excused final (x >>= f) s := by
  rwa [Ends,bind_ok run]

theorem Ends.mono {post' : α → σ → Prop} (ends : Ends excused post x s) (weaker : ∀ a next, post a next → post' a next) :
    Ends excused post' x s := by
  rw [Ends] at ends ⊢
  match run : x s with
  | (.ok a, next) =>
    rw [run] at ends
    exact weaker a next ends
  | (.error e, next) =>
    rw [run] at ends
    exact ends

theorem Ends.ran (ends : Ends excused post x s) (run : x s = (.ok a, next)) : post a next := by
  rwa [Ends,run] at ends

theorem Ends.threw (ends : Ends excused post x s) (run : x s = (.error e, next)) : excused e := by
  rwa [Ends,run] at ends

theorem Ends.returns (ends : Ends excused post x s) (none : ∀ e, (x s).1 = .error e → ¬excused e) :
    ∃ a next, x s = (.ok a, next) ∧ post a next := by
  rw [Ends] at ends
  match run : x s with
  | (.ok a, next) =>
    rw [run] at ends
    exact ⟨a,next,rfl,ends⟩
  | (.error e, next) =>
    rw [run] at ends
    exact absurd ends (none e (by rw [run]))

end Ends

/-- Every run of the call that throws relates its two states. -/
def OnThrow (R : σ → σ → Prop) (x : Prog σ ε α) : Prop := ∀ s e next, x s = (.error e, next) → R s next

theorem Within.onThrow (within : Within R x) : OnThrow R x :=
  fun _ _ _ run => within.ran run

theorem OnThrow.bind (frame : Frame R) (first : Within R x) (rest : ∀ a, OnThrow R (f a)) : OnThrow R (x >>= f) := by
  intro s e final run
  have step := first s
  unfold after at step
  rw [bind_run] at run
  match split : x s with
  | (.ok a, next) =>
    rw [split] at step run
    exact frame.trans s next final step (rest a next e final run)
  | (.error e', next) =>
    rw [split] at step run
    obtain ⟨_,rfl⟩ := Prod.mk.inj run
    exact step

end Prog

section Runs

variable {σ ι : Type} (step : σ → ι → σ)

/-- The run meets `admissible` at each of its steps, in the state before the step. -/
def Guarded (admissible : σ → ι → Prop) : σ → List ι → Prop
  | _, [] => True
  | s, a :: rest => admissible s a ∧ Guarded admissible (step s a) rest

instance Guarded.decidable (admissible : σ → ι → Prop) [∀ s a, Decidable (admissible s a)] :
    ∀ s run, Decidable (Guarded step admissible s run)
  | _, [] => isTrue trivial
  | s, a :: rest =>
    have := Guarded.decidable admissible (step s a) rest
    inferInstanceAs (Decidable (_ ∧ _))

variable {step} {admissible : σ → ι → Prop}

theorem run_invariant (inv : σ → Prop) (keeps : ∀ s a, inv s → inv (step s a)) (s : σ) (initial : inv s)
    (run : List ι) : inv (run.foldl step s) := by
  induction run generalizing s with
  | nil => exact initial
  | cons a rest ih => exact ih _ (keeps s a initial)

theorem guarded_invariant (inv : σ → Prop) (keeps : ∀ s a, inv s → admissible s a → inv (step s a)) (s : σ)
    (initial : inv s) (run : List ι) (guarded : Guarded step admissible s run) :
    inv (run.foldl step s) := by
  induction run generalizing s with
  | nil => exact initial
  | cons a rest ih => exact ih _ (keeps s a initial guarded.1) guarded.2

/-- If exactly the admissible steps lead from one good state to another, the guarded runs are those
whose states are all good. -/
theorem guarded_iff (base good : σ → Prop) (keeps : ∀ s a, base s → base (step s a))
    (exactly : ∀ s a, base s → good s → (admissible s a ↔ good (step s a))) (s : σ) (sound : base s) (initial : good s)
    (run : List ι) : Guarded step admissible s run ↔ ∀ before after, run = before ++ after → good (before.foldl step s) := by
  induction run generalizing s with
  | nil =>
    refine ⟨fun _ before after split => ?_,fun _ => trivial⟩
    obtain ⟨rfl,_⟩ := List.append_eq_nil_iff.mp split.symm
    exact initial
  | cons a rest ih =>
    constructor
    · rintro ⟨fine,guarded⟩ before after split
      cases before with
      | nil => exact initial
      | cons b before =>
        obtain ⟨rfl,tail⟩ := List.cons.inj split
        exact (ih _ (keeps s a sound) ((exactly s a sound initial).mp fine)).mp guarded before after tail
    · intro all
      have next : good (step s a) := all [a] rest rfl
      refine ⟨(exactly s a sound initial).mpr next,(ih _ (keeps s a sound) next).mpr fun before after split => ?_⟩
      exact all (a :: before) after (by rw [split]; rfl)

theorem Guarded.concat {s : σ} {before after : List ι} (first : Guarded step admissible s before)
    (second : Guarded step admissible (before.foldl step s) after) : Guarded step admissible s (before ++ after) := by
  induction before generalizing s with
  | nil => exact second
  | cons a rest ih => exact ⟨first.1,ih first.2 second⟩

theorem Guarded.append {s : σ} {before after : List ι} (guarded : Guarded step admissible s (before ++ after)) :
    Guarded step admissible s before ∧ Guarded step admissible (before.foldl step s) after := by
  induction before generalizing s with
  | nil => exact ⟨trivial,guarded⟩
  | cons a rest ih => exact ⟨⟨guarded.1,(ih guarded.2).1⟩,(ih guarded.2).2⟩

theorem Guarded.and_if {p q : σ → ι → Prop} {flag : Prop} {s : σ} {run : List ι} (first : Guarded step p s run)
    (second : flag → Guarded step q s run) :
    Guarded step (fun s a => p s a ∧ (flag → q s a)) s run := by
  induction run generalizing s with
  | nil => trivial
  | cons a rest ih =>
    exact ⟨⟨first.1,fun flagged => (second flagged).1⟩,ih first.2 fun flagged => (second flagged).2⟩

end Runs

end Rucbase.Lib
