import Rucbase.Lib.Prog

/-! Cursors over rows. What a cursor does from its start on is a trace: the rows it stops at, and
then its end or an error. A cursor that shows a trace shows it again each time it is started, and
whoever drains it gets the rows of the trace or its error. -/
namespace Rucbase.Lib

open Prog

variable {σ ε ρ α β γ : Type}

/-- Why a call of a bounded number of rounds did not return. -/
inductive Halt (ε : Type) where
  | thrown (e : ε)
  | outOfFuel
  deriving DecidableEq, Repr

structure Cursor (σ ε ρ : Type) where
  isEnd : σ → Bool
  start : Prog σ (Halt ε) Unit
  advance : Prog σ (Halt ε) Unit
  read : Prog σ (Halt ε) ρ

inductive Trace (ε ρ : Type) where
  | done
  | failed (e : ε)
  | row (a : ρ) (rest : Trace ε ρ)
  deriving DecidableEq, Repr

variable {t : Trace ε ρ} {shown : Trace ε ρ → σ → Prop} {f : ρ → α}

namespace Trace

def rows : Trace ε ρ → List ρ
  | done | failed _ => []
  | row a rest => a :: rest.rows

/-- The error at the end. -/
def fault : Trace ε ρ → Option ε
  | done => none
  | failed e => some e
  | row _ rest => rest.fault

def length (t : Trace ε ρ) : Nat := t.rows.length

/-- What draining the trace gives. -/
def run : Trace ε ρ → Except (Halt ε) (List ρ)
  | done => .ok []
  | failed e => .error (.thrown e)
  | row a rest => (rest.run).map (a :: ·)

def ofList : List ρ → Trace ε ρ
  | [] => done
  | a :: rest => row a (ofList rest)

@[simp] theorem rows_ofList (l : List ρ) : (ofList l : Trace ε ρ).rows = l := by
  induction l with
  | nil => rfl
  | cons a rest ih => simp [ofList,rows,ih]

@[simp] theorem fault_ofList (l : List ρ) : (ofList l : Trace ε ρ).fault = none := by
  induction l with
  | nil => rfl
  | cons a rest ih => simpa [ofList,fault] using ih

theorem run_clean (clean : t.fault = none) : t.run = .ok t.rows := by
  induction t with
  | done => rfl
  | failed e => cases clean
  | row a rest ih =>
    rw [run,ih clean]
    rfl

theorem run_ok {l : List ρ} (ran : t.run = .ok l) : t.fault = none := by
  induction t generalizing l with
  | done => rfl
  | failed e => cases ran
  | row a rest ih =>
    cases rest' : rest.run with
    | ok tail => exact ih rest'
    | error e => simp [run,rest',Except.map] at ran

variable {a : α} {next : Trace ε γ} {right : Trace ε β} {left : Trace ε α}

section Nested

variable (fault₀ : ε) (test : α → β → Except ε Bool) (glue : α → β → γ)

/-- One row of the outer loop against what is left of the inner one; `next` are the rows after it. -/
def pairs (a : α) : Trace ε β → Trace ε γ → Trace ε γ
  | done, next => next
  | failed e, _ => failed e
  | row b rest, next =>
    match test a b with
    | .error e => failed e
    | .ok true => row (glue a b) (pairs a rest next)
    | .ok false => pairs a rest next

/-- Nested loops that read the inner row before they look whether there is one. -/
def nest (right : Trace ε β) : Trace ε α → Trace ε γ
  | done => done
  | failed e => failed e
  | row a rest =>
    match right with
    | done => failed fault₀
    | _ => pairs test glue a right (nest right rest)

variable {fault₀ test glue}

theorem pairs_fault (a : α) (t : Trace ε β) (next : Trace ε γ) :
    (pairs test glue a t next).fault = none ↔
      t.fault = none ∧ (∀ b ∈ t.rows, (test a b).isOk = true) ∧ next.fault = none := by
  induction t with
  | done => simp [pairs,fault,rows]
  | failed e => simp [pairs,fault]
  | row b rest ih =>
    match tested : test a b with
    | .error e => simp [pairs,tested,fault,rows,Except.isOk,Except.toBool]
    | .ok true => simp [pairs,tested,fault,rows,Except.isOk,Except.toBool,ih]
    | .ok false => simp [pairs,tested,fault,rows,Except.isOk,Except.toBool,ih]

def passes (test : α → β → Except ε Bool) (a : α) (b : β) : Bool := (test a b).toOption == some true

theorem pairs_rows {t : Trace ε β} (clean : (pairs test glue a t next).fault = none) :
    (pairs test glue a t next).rows = (t.rows.filter (passes test a)).map (glue a) ++ next.rows := by
  induction t with
  | done => simp [pairs,rows]
  | failed e => cases clean
  | row b rest ih =>
    match tested : test a b with
    | .error e => simp [pairs,tested,fault] at clean
    | .ok true =>
      have later : (pairs test glue a rest next).fault = none := by simpa [pairs,tested,fault] using clean
      simp [pairs,tested,rows,passes,Except.toOption,ih later]
    | .ok false =>
      have later : (pairs test glue a rest next).fault = none := by simpa [pairs,tested] using clean
      simp [pairs,tested,rows,passes,Except.toOption,ih later]

theorem mem_pairs {t : Trace ε β} {c : γ} (member : c ∈ (pairs test glue a t next).rows) :
    (∃ b ∈ t.rows, c = glue a b) ∨ c ∈ next.rows := by
  induction t with
  | done => exact .inr member
  | failed e => cases member
  | row b rest ih =>
    have later (listed : c ∈ (pairs test glue a rest next).rows) : (∃ b' ∈ (row b rest).rows, c = glue a b') ∨ c ∈ next.rows :=
      (ih listed).imp_left fun ⟨b',inside,same⟩ => ⟨b',List.mem_cons_of_mem _ inside,same⟩
    match tested : test a b with
    | .error e => simp [pairs,tested,rows] at member
    | .ok true =>
      have listed : c = glue a b ∨ c ∈ (pairs test glue a rest next).rows := by simpa [pairs,tested,rows] using member
      exact listed.elim (fun here => .inl ⟨b,List.mem_cons_self ..,here⟩) later
    | .ok false => exact later (by simpa [pairs,tested] using member)

theorem mem_nest  {c : γ} (member : c ∈ (nest fault₀ test glue right left).rows) :
    ∃ a ∈ left.rows, ∃ b ∈ right.rows, c = glue a b := by
  induction left with
  | done => cases member
  | failed e => cases member
  | row a rest ih =>
    cases right with
    | done => cases member
    | failed e => cases member
    | row b tail =>
      rcases mem_pairs member with ⟨b',inside,same⟩ | later
      · exact ⟨a,List.mem_cons_self ..,b',inside,same⟩
      · obtain ⟨a',listed,found⟩ := ih later
        exact ⟨a',List.mem_cons_of_mem _ listed,found⟩

/-- Nested loops end without an error if the inner one has rows, once the outer one has. -/
theorem nest_fault (right : Trace ε β) (left : Trace ε α) :
    (nest fault₀ test glue right left).fault = none ↔ left.fault = none ∧
      (left.rows = [] ∨ (right.fault = none ∧ right.rows ≠ []) ∧ ∀ a ∈ left.rows, ∀ b ∈ right.rows, (test a b).isOk = true) := by
  induction left with
  | done => simp [nest,fault,rows]
  | failed e => simp [nest,fault]
  | row a rest ih =>
    cases right with
    | done => simp [nest,fault,rows]
    | failed e => simp [nest,pairs,fault,rows]
    | row b tail =>
      have shape : nest fault₀ test glue (row b tail) (row a rest) =
        pairs test glue a (row b tail) (nest fault₀ test glue (row b tail) rest) := rfl
      rw [shape,pairs_fault,ih]
      constructor
      · rintro ⟨clean,tested,later,others⟩
        refine ⟨later,.inr ⟨⟨clean,by simp [rows]⟩,List.forall_mem_cons.mpr ⟨tested,fun a' member => ?_⟩⟩⟩
        rcases others with none | ⟨_,all⟩
        · simp [none] at member
        · exact all a' member
      · rintro ⟨later,none | ⟨clean,all⟩⟩
        · cases none
        · obtain ⟨tested,others⟩ := List.forall_mem_cons.mp all
          exact ⟨clean.1,tested,later,.inr ⟨clean,others⟩⟩

theorem nest_rows  (clean : (nest fault₀ test glue right left).fault = none) :
    (nest fault₀ test glue right left).rows =
      left.rows.flatMap fun a => (right.rows.filter (passes test a)).map (glue a) := by
  induction left with
  | done => rfl
  | failed e => cases clean
  | row a rest ih =>
    cases right with
    | done => cases clean
    | failed e => cases clean
    | row b tail =>
      have shape : nest fault₀ test glue (row b tail) (row a rest) =
        pairs test glue a (row b tail) (nest fault₀ test glue (row b tail) rest) := rfl
      rw [shape] at clean ⊢
      rw [pairs_rows clean,ih ((pairs_fault ..).mp clean).2.2]
      rfl

end Nested

end Trace

/-- A call that fails with the trace, or leads to a state that shows it. -/
def Arrives (shown : Trace ε ρ → σ → Prop) (result : Except (Halt ε) Unit × σ) : Trace ε ρ → Prop
  | .failed e => result.1 = .error (.thrown e)
  | .done => ∃ s, result = (.ok (),s) ∧ shown .done s
  | .row a rest => ∃ s, result = (.ok (),s) ∧ shown (.row a rest) s

/-- The cursor can be started in the `ready` states and then shows the trace. `shown` says what is
left of it in a state. -/
structure Cursor.Shows (c : Cursor σ ε ρ) (fault₀ : ε) (ready : σ → Prop) (shown : Trace ε ρ → σ → Prop)
    (trace : Trace ε ρ) : Prop where
  again : ∀ t s, shown t s → ready s
  start : ∀ s, ready s → Arrives shown (c.start s) trace
  isEnd_done : ∀ s, shown .done s → c.isEnd s = true
  isEnd_row : ∀ a rest s, shown (.row a rest) s → c.isEnd s = false
  read : ∀ a rest s, shown (.row a rest) s → ∃ next, c.read s = (.ok a,next) ∧ shown (.row a rest) next
  advance : ∀ a rest s, shown (.row a rest) s → Arrives shown (c.advance s) rest
  isOver : ∀ s, shown .done s → (c.read s).1 = .error (.thrown fault₀)

theorem Arrives.restrict {result : Except (Halt ε) Unit × σ} {P : Trace ε ρ → Prop} (arrives : Arrives shown result t)
    (holds : P t) : Arrives (fun t s => shown t s ∧ P t) result t := by
  cases t with
  | failed e => exact arrives
  | done =>
    obtain ⟨s,run,here⟩ := arrives
    exact ⟨s,run,here,holds⟩
  | row a rest =>
    obtain ⟨s,run,here⟩ := arrives
    exact ⟨s,run,here,holds⟩

theorem Cursor.Shows.restrict {c : Cursor σ ε ρ} {fault₀ : ε} {ready : σ → Prop} {trace : Trace ε ρ}
    (shows : c.Shows fault₀ ready shown trace) {P : Trace ε ρ → Prop} (tail : ∀ a rest, P (.row a rest) → P rest)
    (holds : P trace) :
    c.Shows fault₀ ready (fun t s => shown t s ∧ P t) trace where
  again t s here := shows.again t s here.1
  start s begins := (shows.start s begins).restrict holds
  isEnd_done s here := shows.isEnd_done s here.1
  isEnd_row a rest s here := shows.isEnd_row a rest s here.1
  read a rest s here := by
    obtain ⟨next,run,still⟩ := shows.read a rest s here.1
    exact ⟨next,run,still,here.2⟩
  advance a rest s here := (shows.advance a rest s here.1).restrict (tail a rest here.2)
  isOver s here := shows.isOver s here.1

namespace Cursor

/-- The rows from where the cursor is. -/
def drainFrom (c : Cursor σ ε ρ) : Nat → Prog σ (Halt ε) (List ρ)
  | 0 => raise .outOfFuel
  | fuel + 1 => do
    let s ← state
    if c.isEnd s then pure []
    else do
      let a ← c.read
      c.advance
      let rest ← drainFrom c fuel
      pure (a :: rest)

def drain (c : Cursor σ ε ρ) (fuel : Nat) : Prog σ (Halt ε) (List ρ) := do
  c.start
  c.drainFrom fuel

variable {c : Cursor σ ε ρ} {fault₀ : ε} {ready : σ → Prop} {shown : Trace ε ρ → σ → Prop} {trace : Trace ε ρ}

theorem Shows.drained (shows : c.Shows fault₀ ready shown trace) {x : Prog σ (Halt ε) Unit} {s : σ} {fuel : Nat}
    (arrives : Arrives shown (x s) t) (enough : t.length < fuel) : ((x >>= fun _ => c.drainFrom fuel) s).1 = t.run := by
  -- one round of the loop for each row
  induction t generalizing x s fuel with
  | failed e =>
    match ran : x s with
    | (.error thrown,next) =>
      rw [ran] at arrives
      rw [bind_error ran]
      exact congrArg Except.error (Except.error.inj arrives)
    | (.ok _,next) =>
      rw [ran] at arrives
      cases arrives
  | done =>
    obtain ⟨next,ran,here⟩ := arrives
    obtain ⟨fuel,rfl⟩ : ∃ n, fuel = n + 1 := ⟨fuel - 1,by omega⟩
    rw [bind_ok ran]
    simp [drainFrom,bind_run,shows.isEnd_done next here,Trace.run]
  | row a rest ih =>
    obtain ⟨next,ran,here⟩ := arrives
    obtain ⟨fuel,rfl⟩ : ∃ n, fuel = n + 1 := ⟨fuel - 1,by omega⟩
    obtain ⟨seen,reading,still⟩ := shows.read a rest next here
    have fewer : rest.length < fuel := by
      simp only [Trace.length,Trace.rows,List.length_cons] at enough ⊢
      omega
    have later := ih (x := c.advance) (shows.advance a rest seen still) fewer
    rw [bind_ok ran,drainFrom,bind_ok (state_run next),shows.isEnd_row a rest next here]
    have shape : ((c.read >>= fun a => c.advance >>= fun _ => c.drainFrom fuel >>= fun rest => pure (a :: rest)) next) =
        ((c.advance >>= fun _ => c.drainFrom fuel) >>= fun rest => pure (a :: rest)) seen := by
      rw [bind_ok reading,bind_assoc]
    refine (congrArg Prod.fst shape).trans ?_
    rw [bind_run,Trace.run,← later]
    match (c.advance >>= fun _ => c.drainFrom fuel) seen with
    | (.ok l,last) => rfl
    | (.error e,last) => rfl

theorem Shows.drain (shows : c.Shows fault₀ ready shown trace) {s : σ} (begins : ready s) {fuel : Nat}
    (enough : trace.length < fuel) : (c.drain fuel s).1 = trace.run :=
  shows.drained (shows.start s begins) enough

end Cursor

end Rucbase.Lib
