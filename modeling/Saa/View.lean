import Saa.Lib.Trace
import Saa.Step

/-! # What the history says about the queue

The abstract queue is computed from the labels of the steps alone: which entries were
pushed and neither detached nor unlinked, which entries each thread has still to
resolve, and where every entry is in its life. The threads never read it. -/
namespace Saa

open Lib.Trace

/-- The life of an entry. `idle` covers an entry that was never registered, that was
consumed, and that was dropped. -/
inductive Stat where
  | idle
  | queued
  | taken (t : Tid)
  | answered (t : Tid)
  | final
  | unlinked
  deriving DecidableEq, Repr

structure View where
  queue : List Ptr
  taken : Tid → List Ptr
  stat : Ptr → Stat
  sets : Ptr → ℕ

def View.initial : View := ⟨[], fun _ => [], fun _ => .idle, fun _ => 0⟩

def upTo (a : Ptr) (l : List Ptr) : List Ptr := l.takeWhile (· ≠ a) ++ [a]

def behind (a : Ptr) (l : List Ptr) : List Ptr := (l.dropWhile (· ≠ a)).tail

/-- Thread `t` detaches `gone`; the queue keeps `keep`. -/
def View.detach (v : View) (t : Tid) (keep gone : List Ptr) : View :=
  { v with
    queue := keep
    taken := Function.update v.taken t gone
    stat := fun p => if p ∈ gone then .taken t else v.stat p }

def View.observe (v : View) : Event → View
  | .push _ a _ | .countDown _ a _ =>
    { v with queue := a :: v.queue, stat := Function.update v.stat a .queued }
  | .cut t a => v.detach t (upTo a v.queue) (behind a v.queue)
  | .tailReset t | .poison t | .wakeAll t _ | .last t _ | .writeBack t _ =>
    v.detach t [] v.queue
  | .unlink _ a =>
    { v with queue := v.queue.erase a, stat := Function.update v.stat a .unlinked }
  | .setResult t a _ =>
    { v with
      taken := Function.update v.taken t ((v.taken t).erase a)
      stat := Function.update v.stat a (.answered t)
      sets := Function.update v.sets a (v.sets a + 1) }
  | .finalize _ a => { v with stat := Function.update v.stat a .final }
  | .consume _ a _ | .retry _ a | .dropped _ a =>
    { v with stat := Function.update v.stat a .idle, sets := Function.update v.sets a 0 }
  | _ => v

/-- The abstract queue after a history. -/
def view (h : List Event) : View := fold View.observe .initial h

@[simp] theorem view_nil : view [] = .initial := rfl

@[simp] theorem view_cons (e : Event) (h : List Event) :
    view (e :: h) = (view h).observe e := rfl

theorem upTo_append {a : Ptr} {l₁ l₂ : List Ptr} (h : a ∉ l₁) :
    upTo a (l₁ ++ a :: l₂) = l₁ ++ [a] := by
  induction l₁ with
  | nil => simp [upTo]
  | cons b l₁ ih =>
    have hb : b ≠ a := fun he => h (by simp [he])
    have ih := ih fun hm => h (by simp [hm])
    simp only [upTo, List.cons_append] at ih ⊢
    rw [List.takeWhile_cons_of_pos (by simpa using hb), List.cons_append, ih]

theorem behind_append {a : Ptr} {l₁ l₂ : List Ptr} (h : a ∉ l₁) :
    behind a (l₁ ++ a :: l₂) = l₂ := by
  induction l₁ with
  | nil => simp [behind]
  | cons b l₁ ih =>
    have hb : b ≠ a := fun he => h (by simp [he])
    have ih := ih fun hm => h (by simp [hm])
    simp only [behind, List.cons_append] at ih ⊢
    rw [List.dropWhile_cons_of_pos (by simpa using hb), ih]

/-- The transition system of one primitive shared by any number of threads. -/
def system (kind : Kind) : System Cfg Action Event := ⟨kind.initial, step kind⟩

/-- Reachable states with the history that led to them. -/
abbrev Reach (kind : Kind) (ok : Guard Cfg Action Event) : Cfg → List Event → Prop :=
  Run (system kind) ok

end Saa
