import Mathlib

/-!
# Calls that may stop before they return

A call of imperative code reads and updates one explicit state and either
returns a value or stops early. The state at the moment of stopping is kept,
so what an exception leaves behind can be stated. `Ensures` is the weakest
precondition of a call: its rules below execute a call symbolically, one
statement at a time, and are the only place where the monad is unfolded.
-/

namespace Systemish.Foundation

/-- Why a call did not return a value. -/
inductive Stop where
  /-- An exception left the call; the caller may catch it and go on. -/
  | thrown (message : String)
  /-- A failed assertion ended the process. -/
  | aborted
  /-- The language gives the execution no meaning from here on. -/
  | undefined
  /-- The code ended the process itself. -/
  | exited
  /-- The call is still waiting when the supplied answers run out. -/
  | pending
deriving DecidableEq, Repr

/-- Code over the state `σ` that returns an `α` or stops. -/
abbrev Call (σ : Type) := ExceptT Stop (StateM σ)

namespace Call

variable {σ α β : Type}

/-- Result and final state of a call. -/
def eval (call : Call σ α) (state : σ) : Except Stop α × σ := call.run state

/-- The result and the final state of a call satisfy `post`. -/
def Ensures (call : Call σ α) (state : σ) (post : Except Stop α → σ → Prop) : Prop :=
  post (call.eval state).1 (call.eval state).2

/-- A statement that must hold, checked only when assertions are compiled in. -/
def check (enabled : Bool) (condition : Prop) [Decidable condition] : Call σ Unit :=
  if enabled = true ∧ ¬ condition then throw .aborted else pure ()

theorem ensures_iff {call : Call σ α} {state : σ} {post : Except Stop α → σ → Prop} :
    call.Ensures state post ↔ post (call.eval state).1 (call.eval state).2 := Iff.rfl

theorem Ensures.mono {call : Call σ α} {state : σ} {post post' : Except Stop α → σ → Prop}
    (h : call.Ensures state post) (himp : ∀ result final, post result final → post' result final) :
    call.Ensures state post' := himp _ _ h

@[simp] theorem ensures_pure (value : α) (state : σ) (post : Except Stop α → σ → Prop) :
    (pure value : Call σ α).Ensures state post ↔ post (.ok value) state := Iff.rfl

@[simp] theorem ensures_throw (stop : Stop) (state : σ) (post : Except Stop α → σ → Prop) :
    (throw stop : Call σ α).Ensures state post ↔ post (.error stop) state := Iff.rfl

@[simp] theorem ensures_get (state : σ) (post : Except Stop σ → σ → Prop) :
    (get : Call σ σ).Ensures state post ↔ post (.ok state) state := Iff.rfl

@[simp] theorem ensures_modify (update : σ → σ) (state : σ) (post : Except Stop Unit → σ → Prop) :
    (modify update : Call σ Unit).Ensures state post ↔ post (.ok ()) (update state) := Iff.rfl

/-- Sequencing: an early stop of the first call is the stop of the whole. -/
theorem eval_bind (call : Call σ α) (next : α → Call σ β) (state : σ) :
    (call >>= next).eval state =
      match call.eval state with
      | (.ok value, middle) => (next value).eval middle
      | (.error stop, middle) => (.error stop, middle) := by
  have h : (call >>= next).eval state =
      (ExceptT.bindCont next (call.eval state).1).run (call.eval state).2 := rfl
  rw [h]
  rcases call.eval state with ⟨result, middle⟩
  cases result <;> rfl

@[simp] theorem ensures_bind (call : Call σ α) (next : α → Call σ β) (state : σ)
    (post : Except Stop β → σ → Prop) :
    (call >>= next).Ensures state post ↔ call.Ensures state fun result middle ↦
      match result with
      | .ok value => (next value).Ensures middle post
      | .error stop => post (.error stop) middle := by
  simp only [Ensures, eval_bind]
  rcases call.eval state with ⟨result, middle⟩
  cases result <;> rfl

@[simp] theorem ensures_check (enabled : Bool) (condition : Prop) [Decidable condition]
    (state : σ) (post : Except Stop Unit → σ → Prop) :
    (check enabled condition : Call σ Unit).Ensures state post ↔
      if enabled = true ∧ ¬ condition then post (.error .aborted) state
      else post (.ok ()) state := by
  unfold check
  split <;> rfl

end Call

end Systemish.Foundation
