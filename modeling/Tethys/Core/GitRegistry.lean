import Tethys.Lib.OrdMap
import Mathlib.Data.String.Basic

/-!
# The registry of worktrees

Which worktree each thread has, with the engine that drives git in it and the last state that the
thread reported. Engines are shared between the threads of one directory: they are kept by the
canonical form of the root, or by its text where there is none.
-/

namespace Tethys.Core

open Lib

inductive ThreadRuntimeState where
  | idle | running | error | interrupted | suspended
  deriving DecidableEq

structure WorktreeInfo where
  threadId : String
  workspaceRoot : String
  path : String
  deriving DecidableEq

/-- A registered thread worktree plus its engine. -/
structure RegisteredWorktree (Engine : Type) where
  info : WorktreeInfo
  engine : Engine
  lastState : ThreadRuntimeState

structure GitRegistry (Engine : Type) where
  threads : OrdMap String (RegisteredWorktree Engine)
  engines : OrdMap String Engine

/-- The key of a root, by what canonicalising its text gives. -/
def engineKey (canonicalize : String → Option String) (root : String) : String :=
  (canonicalize root).getD root

namespace GitRegistry
variable {Engine : Type} (registry : GitRegistry Engine)

/-- The shared engine for a root, which is opened once. -/
def engine (canonicalize : String → Option String) (opened : Option Engine) (root : String) :
    Option (Engine × GitRegistry Engine) :=
  match registry.engines.get (engineKey canonicalize root) with
  | some existing => some (existing, registry)
  | none => opened.map fun engine =>
      (engine, { registry with engines := registry.engines.insert (engineKey canonicalize root) engine })

def register (info : WorktreeInfo) (engine : Engine) : GitRegistry Engine :=
  { registry with threads := registry.threads.insert info.threadId ⟨info, engine, .idle⟩ }

def get (thread : String) : Option (RegisteredWorktree Engine) := registry.threads.get thread

def setState (thread : String) (state : ThreadRuntimeState) : GitRegistry Engine :=
  match registry.threads.get thread with
  | some registered =>
    { registry with threads := registry.threads.insert thread { registered with lastState := state } }
  | none => registry

/-- Forget a thread, and the engine of its worktree when no other thread has the same path. -/
def remove (canonicalize : String → Option String) (thread : String) : GitRegistry Engine :=
  match registry.threads.get thread with
  | none => registry
  | some registered =>
    let threads := registry.threads.erase thread
    if threads.entries.any fun e => e.2.info.path = registered.info.path then
      { registry with threads }
    else
      { threads, engines := registry.engines.erase (engineKey canonicalize registered.info.path) }

end GitRegistry

end Tethys.Core
