import Rucbase.Lib.Prog

/-! Two programs that run side by side on related states. -/
namespace Rucbase.Lib

open Prog

variable {σ τ ε α β : Type}

/-- From states related by `P`, both calls return the same value in states related by `Q`, or both
throw the same exception in states related by `E`. Without an `E` nothing is asked of the first call
when the second one throws. -/
def Simulates (P : σ → τ → Prop) (x : Prog σ ε α) (y : Prog τ ε α) (Q : α → σ → τ → Prop) (E : Option (σ → τ → Prop)) :
    Prop :=
  ∀ s t, P s t →
    (∃ a s' t', x s = (.ok a,s') ∧ y t = (.ok a,t') ∧ Q a s' t') ∨
    ∃ e t', y t = (.error e,t') ∧ ∀ lost ∈ E, ∃ s', x s = (.error e,s') ∧ lost s' t'

namespace Simulates

variable {P P' : σ → τ → Prop} {Q Q' : α → σ → τ → Prop} {E : Option (σ → τ → Prop)} {lost : σ → τ → Prop}
  {x : Prog σ ε α} {y : Prog τ ε α}

theorem pure {a : α} (post : ∀ s t, P s t → Q a s t) :
    Simulates P (Pure.pure a : Prog σ ε α) (Pure.pure a) Q E :=
  fun s t pre => .inl ⟨a,s,t,rfl,rfl,post s t pre⟩

theorem ret (a : α) : Simulates P (Pure.pure a : Prog σ ε α) (Pure.pure a) (fun _ => P) E := pure fun _ _ pre => pre

theorem raise {e : ε} (post : ∀ s t, P s t → ∀ lost ∈ E, lost s t) : Simulates P (raise e) (raise e) Q E :=
  fun s t pre => .inr ⟨e,t,rfl,fun lost isLost => ⟨s,rfl,post s t pre lost isLost⟩⟩

theorem bind {R : β → σ → τ → Prop} {f : α → Prog σ ε β} {g : α → Prog τ ε β} (first : Simulates P x y Q E)
    (rest : ∀ a, Simulates (Q a) (f a) (g a) R E) : Simulates P (x >>= f) (y >>= g) R E := by
  intro s t pre
  rcases first s t pre with ⟨a,s',t',left,right,mid⟩ | ⟨e,t',right,thrown⟩
  · rw [bind_ok left,bind_ok right]
    exact rest a s' t' mid
  · refine .inr ⟨e,t',bind_error right,fun lost isLost => ?_⟩
    obtain ⟨s',left,post⟩ := thrown lost isLost
    exact ⟨s',bind_error left,post⟩

theorem check {holds : Bool} {e : ε} (thrown : ∀ s t, P s t → ∀ lost ∈ E, lost s t) :
    Simulates P (check holds e) (check holds e) (fun _ => P) E := by
  unfold Prog.check
  cases holds
  · exact raise thrown
  · exact pure fun _ _ pre => pre

theorem mono (sim : Simulates P x y Q E) (before : ∀ s t, P' s t → P s t) (after : ∀ a s t, Q a s t → Q' a s t) :
    Simulates P' x y Q' E := by
  intro s t pre
  rcases sim s t (before s t pre) with ⟨a,s',t',left,right,post⟩ | thrown
  · exact .inl ⟨a,s',t',left,right,after a s' t' post⟩
  · exact .inr thrown

theorem and {K : τ → Prop} {L : α → τ → Prop} (sim : Simulates P x y Q E)
    (keeps : ∀ t a t', K t → y t = (.ok a,t') → L a t') :
    Simulates (fun s t => P s t ∧ K t) x y (fun a s t => Q a s t ∧ L a t) E := by
  rintro s t ⟨pre,known⟩
  rcases sim s t pre with ⟨a,s',t',left,right,post⟩ | thrown
  · exact .inl ⟨a,s',t',left,right,post,keeps t a t' known right⟩
  · exact .inr thrown

theorem either (left : Simulates P x y Q E) (right : Simulates P' x y Q E) : Simulates (fun s t => P s t ∨ P' s t) x y Q E :=
  fun s t pre => pre.elim (left s t) (right s t)

theorem some {ι : Type} {P : ι → σ → τ → Prop} (each : ∀ i, Simulates (P i) x y Q E) :
    Simulates (fun s t => ∃ i, P i s t) x y Q E :=
  fun s t ⟨i,pre⟩ => each i s t pre

/-- A fact about the start that does not change may be used on the way. -/
theorem given {fact : Prop} (sim : fact → Simulates P x y Q E) : Simulates (fun s t => fact ∧ P s t) x y Q E :=
  fun s t ⟨known,pre⟩ => sim known s t pre

theorem of_within {R : σ → σ → Prop} {x : Prog σ ε α} (frame : Frame R) (start : σ) (within : Within R x) :
    Simulates (fun s t => s = t ∧ R start s) x x (fun _ s t => s = t ∧ R start s) (Option.some fun s _ => R start s) := by
  rintro s _ ⟨rfl,since⟩
  have moved := frame.trans _ _ _ since (within s)
  match run : x s with
  | (.ok a,next) =>
    rw [Prog.after,run] at moved
    exact .inl ⟨a,next,next,rfl,rfl,rfl,moved⟩
  | (.error e,next) =>
    rw [Prog.after,run] at moved
    refine .inr ⟨e,next,rfl,fun lost isLost => ⟨next,rfl,?_⟩⟩
    obtain rfl := Option.some.inj isLost
    exact moved

theorem within {R : σ → σ → Prop} {x : Prog σ ε α} {s : σ} (refl : R s s)
    (sim : Simulates (fun now t => now = t ∧ R s now) x x (fun _ now t => now = t ∧ R s now) (Option.some fun now _ => R s now)) :
    R s (x.after s) := by
  rcases sim s s ⟨rfl,refl⟩ with ⟨a,next,_,run,_,_,moved⟩ | ⟨e,_,_,thrown⟩
  · rwa [Prog.after,run]
  · obtain ⟨next,run,moved⟩ := thrown _ rfl
    rwa [Prog.after,run]

/-- Without an `E` only the runs that return count. -/
theorem of_returns (follows : ∀ s t, P s t → ∀ a t', y t = (.ok a,t') → ∃ s', x s = (.ok a,s') ∧ Q a s' t') :
    Simulates P x y Q none := by
  intro s t pre
  match run : y t with
  | (.ok a,t') =>
    obtain ⟨s',left,post⟩ := follows s t pre a t' run
    exact .inl ⟨a,s',t',left,rfl,post⟩
  | (.error e,t') => exact .inr ⟨e,t',rfl,nofun⟩

variable {s : σ} {t : τ}

theorem back (sim : Simulates P x y Q E) (pre : P s t) {a : α} {t' : τ} (run : y t = (.ok a,t')) :
    ∃ s', x s = (.ok a,s') ∧ Q a s' t' := by
  rcases sim s t pre with ⟨b,s',_,left,right,post⟩ | ⟨_,_,right,_⟩
  · obtain ⟨same,rfl⟩ := Prod.mk.inj (run.symm.trans right)
    obtain rfl := Except.ok.inj same
    exact ⟨s',left,post⟩
  · exact absurd (congrArg Prod.fst (run.symm.trans right)) nofun

theorem ran (sim : Simulates P x y Q (Option.some lost)) (pre : P s t) :
    (∃ a s' t', x s = (.ok a,s') ∧ y t = (.ok a,t') ∧ Q a s' t') ∨
    ∃ e s' t', x s = (.error e,s') ∧ y t = (.error e,t') ∧ lost s' t' := by
  refine (sim s t pre).imp_right fun ⟨e,t',right,thrown⟩ => ?_
  obtain ⟨s',left,post⟩ := thrown lost rfl
  exact ⟨e,s',t',left,right,post⟩

theorem after (sim : Simulates P x y Q (Option.some lost)) (pre : P s t) {W : σ → τ → Prop}
    (returned : ∀ a s t, Q a s t → W s t) (thrown : ∀ s t, lost s t → W s t) :
    (x s).1 = (y t).1 ∧ W (x.after s) (y.after t) := by
  rcases sim.ran pre with ⟨a,s',t',left,right,post⟩ | ⟨e,s',t',left,right,post⟩
  · rw [Prog.after,Prog.after,left,right]
    exact ⟨rfl,returned a s' t' post⟩
  · rw [Prog.after,Prog.after,left,right]
    exact ⟨rfl,thrown s' t' post⟩

end Simulates

end Rucbase.Lib
