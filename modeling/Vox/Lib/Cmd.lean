import Mathlib.Logic.Basic

/-!
# Commands that may stop early

A scripting language's handler runs statement after statement on a state it
shares with the next handler. When a statement raises an error, the rest of the
handler is skipped, and what the statements before it have written stays.
`Cmd σ α` is such a command; `exec` is the state it leaves, finished or not.

The `*_apply` lemmas run a straight-line command, and are the simp set for it;
`exec_bind_of_eq` runs one whose first part has a lemma of its own.
-/

namespace Lib

universe u

/-- A command on a state `σ`: a result, or none when an error was raised, and
in both cases the state it leaves. -/
def Cmd (σ α : Type u) : Type u := σ → Option α × σ

namespace Cmd

variable {σ α β : Type u}

instance : Monad (Cmd σ) where
  pure a := fun s => (some a, s)
  bind c f := fun s =>
    match c s with
    | (some a, s') => f a s'
    | (none, s') => (none, s')

/-- An error. -/
def raise : Cmd σ α := fun s => (none, s)

def get : Cmd σ σ := fun s => (some s, s)

def modify (f : σ → σ) : Cmd σ PUnit := fun s => (some ⟨⟩, f s)

/-- The value of an expression, with an error where it has none. -/
def orRaise : Option α → Cmd σ α
  | some a => pure a
  | none => raise

/-- The state after the command, finished or not. -/
def exec (c : Cmd σ α) (s : σ) : σ := (c s).2

/-! ## What straight-line commands do -/

@[simp] theorem pure_apply (a : α) (s : σ) : (pure a : Cmd σ α) s = (some a, s) := rfl

@[simp] theorem get_apply (s : σ) : (get : Cmd σ σ) s = (some s, s) := rfl

@[simp] theorem modify_apply (f : σ → σ) (s : σ) : modify f s = (some ⟨⟩, f s) := rfl

@[simp] theorem orRaise_some (a : α) (s : σ) : (orRaise (some a) : Cmd σ α) s = (some a, s) := rfl

@[simp] theorem orRaise_none (s : σ) : (orRaise none : Cmd σ α) s = (none, s) := rfl

/-- A sequence: the second command runs on what the first leaves, if that
finishes. -/
@[simp] theorem bind_apply (c : Cmd σ α) (f : α → Cmd σ β) (s : σ) :
    (c >>= f) s = match c s with
      | (some a, s') => f a s'
      | (none, s') => (none, s') := rfl

@[simp] theorem exec_pure (a : α) (s : σ) : (pure a : Cmd σ α).exec s = s := rfl

@[simp] theorem exec_get_bind (f : σ → Cmd σ β) (s : σ) : (get >>= f).exec s = (f s).exec s := rfl

@[simp] theorem exec_modify_bind (f : σ → σ) (k : PUnit → Cmd σ β) (s : σ) :
    (modify f >>= k).exec s = (k ⟨⟩).exec (f s) := rfl

@[simp] theorem exec_some_bind (a : α) (k : α → Cmd σ β) (s : σ) :
    (orRaise (some a) >>= k).exec s = (k a).exec s := rfl

@[simp] theorem exec_none_bind (k : α → Cmd σ β) (s : σ) :
    (orRaise none >>= k).exec s = s := rfl

/-- Two commands of which the first finishes. -/
theorem exec_bind_of_eq {c : Cmd σ α} {s s' : σ} {a : α} (h : c s = (some a, s'))
    (k : α → Cmd σ β) : (c >>= k).exec s = (k a).exec s' := by
  simp [exec, h]

/-- A last command whose result is dropped. -/
theorem exec_bind_pure (c : Cmd σ α) (b : β) (s : σ) :
    (c >>= fun _ => pure b).exec s = c.exec s := by
  rcases h : c s with ⟨_ | a, s'⟩ <;> simp [exec, h]

end Cmd

end Lib
