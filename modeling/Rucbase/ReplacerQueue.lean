import Rucbase.LruReplacer
import Rucbase.Lib.History
import Rucbase.Lib.Prog
import Mathlib.Data.Finset.Card

/-! Runs of the replacer. What a client may rely on is said of the calls made so far: a frame waits
from its first unpin on until it is pinned or victimised, and the one that waits longest leaves
first. -/
namespace Rucbase.LruReplacer

open Lib Lib.History

variable {φ : Type} [DecidableEq φ]

inductive ReplacerOp (φ : Type) where
  | unpin (frame : φ)
  | pin (frame : φ)
  | victim

/-- What a call did: a `victim` that returned false did nothing. -/
inductive Event (φ : Type) where
  | unpinned (frame : φ)
  | pinned (frame : φ)
  | victimised (frame : φ)

/-- The replacer and what its calls did so far. -/
structure Logged (φ : Type) where
  replacer : LruReplacer φ
  log : List (Event φ)

def Logged.step (w : Logged φ) : ReplacerOp φ → Logged φ
  | .unpin f => ⟨w.replacer.unpin f,w.log ++ [.unpinned f]⟩
  | .pin f => ⟨w.replacer.pin f,w.log ++ [.pinned f]⟩
  | .victim =>
    match w.replacer.victim with
    | (some f,next) => ⟨next,w.log ++ [.victimised f]⟩
    | (none,next) => ⟨next,w.log⟩

def ends : Event φ → Event φ → Prop
  | .unpinned f, .pinned g => f = g
  | .unpinned f, .victimised g => f = g
  | _, _ => False

/-- The frame was unpinned and not pinned or victimised since. -/
def Waits (log : List (Event φ)) (f : φ) : Prop := Open ends log (.unpinned f)

/-- The latest unpin of `f` that was made while `f` did not wait is older than that of `g`. -/
def WaitsLonger (log : List (Event φ)) (f g : φ) : Prop := Older ends log (.unpinned f) (.unpinned g)

/-- The replacer is the queue of the frames that wait. -/
structure Queues (r : LruReplacer φ) (log : List (Event φ)) : Prop where
  linked : r.Linked
  size : ∃ waiting : Finset φ, (∀ f, f ∈ waiting ↔ Waits log f) ∧ r.size = waiting.card
  victim : r.victim.1.isSome = true ↔ ∃ f, Waits log f
  oldest : ∀ f next, r.victim = (some f,next) → Waits log f ∧ (∀ g, Waits log g → g ≠ f → WaitsLonger log f g) ∧
    next.frames = r.frames.erase f

structure Inv (w : Logged φ) : Prop where
  linked : w.replacer.Linked
  waits : ∀ f, f ∈ w.replacer.frames ↔ Waits w.log f
  order : w.replacer.frames.Pairwise fun f g => WaitsLonger w.log g f

omit [DecidableEq φ] in
theorem start_inv (numPages : Nat) : Inv (⟨start numPages,[]⟩ : Logged φ) :=
  ⟨start_linked numPages,fun _ => ⟨nofun,fun waits => absurd waits not_open_nil⟩,List.Pairwise.nil⟩

section Step

variable {w : Logged φ} {f g : φ}

omit [DecidableEq φ] in
theorem waits_unpinned : Waits (w.log ++ [.unpinned f]) g ↔ g = f ∨ Waits w.log g := by
  rw [Waits,open_append]
  simp [ends,Waits]

omit [DecidableEq φ] in
theorem waits_pinned : Waits (w.log ++ [.pinned f]) g ↔ Waits w.log g ∧ g ≠ f := by
  rw [Waits,open_append]
  simp [ends,Waits]

omit [DecidableEq φ] in
theorem waits_victimised : Waits (w.log ++ [.victimised f]) g ↔ Waits w.log g ∧ g ≠ f := by
  rw [Waits,open_append]
  simp [ends,Waits]

theorem Inv.unpin (inv : Inv w) (f : φ) : Inv (w.step (.unpin f)) := by
  obtain ⟨frames,linked⟩ := unpin_spec inv.linked f
  have grown : ∀ {l : List φ}, l.Pairwise (fun f g => WaitsLonger w.log g f) →
      l.Pairwise fun g h => WaitsLonger (w.log ++ [.unpinned f]) h g :=
    fun order => order.imp fun older => older.append id id
  by_cases there : f ∈ w.replacer.frames
  · rw [if_pos there] at frames
    refine ⟨linked,fun g => ?_,?_⟩
    · rw [Logged.step,frames,waits_unpinned,← inv.waits g]
      exact ⟨.inr,fun either => either.elim (fun same => same ▸ there) id⟩
    · rw [Logged.step,frames]
      exact grown inv.order
  · rw [if_neg there] at frames
    refine ⟨linked,fun g => ?_,?_⟩
    · rw [Logged.step,frames,waits_unpinned,← inv.waits g,List.mem_cons]
    · rw [Logged.step,frames]
      refine List.Pairwise.cons (fun g member => ?_) (grown inv.order)
      -- every other frame took effect within the log so far
      obtain ⟨n,since⟩ := ((inv.waits g).mp member).since id
      exact ⟨n,w.log.length,since.append id,.new fun waits => there ((inv.waits f).mpr waits),since.lt⟩

theorem Inv.removed (inv : Inv w) {next : LruReplacer φ} {x : Event φ} (linked : next.Linked)
    (frames : next.frames = w.replacer.frames.erase f) (ends_iff : ∀ g, ends (.unpinned g) x ↔ g = f)
    (waits : ∀ g, Waits (w.log ++ [x]) g ↔ Waits w.log g ∧ g ≠ f) : Inv ⟨next,w.log ++ [x]⟩ := by
  have left : ∀ g, g ∈ next.frames ↔ g ∈ w.replacer.frames ∧ g ≠ f := fun g => by
    rw [frames,inv.linked.distinct.mem_erase_iff,and_comm]
  refine ⟨linked,fun g => ?_,?_⟩
  · rw [waits,← inv.waits g]
    exact left g
  · have order : next.frames.Pairwise fun g h => WaitsLonger w.log h g :=
      inv.order.sublist (frames ▸ List.erase_sublist)
    refine order.imp_of_mem fun {g h} first second older => ?_
    exact older.append (fun ended => ((left h).mp second).2 ((ends_iff h).mp ended))
      fun ended => ((left g).mp first).2 ((ends_iff g).mp ended)

theorem Inv.pin (inv : Inv w) (f : φ) : Inv (w.step (.pin f)) := by
  obtain ⟨frames,linked⟩ := pin_spec inv.linked f
  exact inv.removed linked frames (fun _ => Iff.rfl) fun _ => waits_pinned

theorem victim_frames {r next : LruReplacer φ} (linked : r.Linked) (chosen : r.victim = (some f,next)) :
    r.frames = next.frames ++ [f] ∧ next.frames = r.frames.erase f ∧ next.Linked := by
  obtain ⟨split,kept⟩ := victim_some linked chosen
  refine ⟨split,?_,kept⟩
  have distinct := linked.distinct
  rw [split] at distinct ⊢
  have apart : f ∉ next.frames := fun member => (List.disjoint_of_nodup_append distinct) member (by simp)
  rw [List.erase_append_right _ apart]
  simp

theorem Inv.victim (inv : Inv w) : Inv (w.step .victim) := by
  match chosen : w.replacer.victim with
  | (none,next) =>
    have same : next = w.replacer := by simpa [chosen] using (victim_none w.replacer (by simp [chosen])).2
    simpa only [Logged.step,chosen,same] using inv
  | (some f,next) =>
    obtain ⟨_,frames,linked⟩ := victim_frames inv.linked chosen
    simpa only [Logged.step,chosen] using inv.removed linked frames (fun _ => Iff.rfl) fun _ => waits_victimised

theorem Inv.step (inv : Inv w) (op : ReplacerOp φ) : Inv (w.step op) := by
  cases op with
  | unpin f => exact inv.unpin f
  | pin f => exact inv.pin f
  | victim => exact inv.victim

theorem Inv.queues (inv : Inv w) : Queues w.replacer w.log := by
  refine ⟨inv.linked,⟨w.replacer.frames.toFinset,fun f => ?_,?_⟩,?_,?_⟩
  · rw [List.mem_toFinset]
    exact inv.waits f
  · rw [List.toFinset_card_of_nodup inv.linked.distinct,frames,List.length_map]
    rfl
  · rcases chosen : w.replacer.victim with ⟨_ | f,next⟩
    · have empty := (victim_none w.replacer (by simp [chosen])).1
      refine ⟨by simp,fun waiting => ?_⟩
      obtain ⟨f,waits⟩ := waiting
      have member := (inv.waits f).mpr waits
      simp [empty] at member
    · have last := (victim_frames inv.linked chosen).1
      exact ⟨fun _ => ⟨f,(inv.waits f).mp (by simp [last])⟩,fun _ => rfl⟩
  · intro f next chosen
    obtain ⟨last,frames,_⟩ := victim_frames inv.linked chosen
    refine ⟨(inv.waits f).mp (by simp [last]),fun g waits other => ?_,frames⟩
    have order := inv.order
    rw [last,List.pairwise_append] at order
    have member : g ∈ next.frames ++ [f] := last ▸ (inv.waits g).mpr waits
    exact order.2.2 g (by simpa [other] using member) f (by simp)

end Step

/-- For every sequence of calls, the replacer is the queue of the frames that wait. -/
theorem replacer_queues (numPages : Nat) (run : List (ReplacerOp φ)) :
    Queues (run.foldl Logged.step ⟨start numPages,[]⟩).replacer (run.foldl Logged.step ⟨start numPages,[]⟩).log :=
  (run_invariant Inv (fun _ op inv => inv.step op) _ (start_inv numPages) run).queues

end Rucbase.LruReplacer
