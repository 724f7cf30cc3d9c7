import Saa.Releasing

/-! # Try calls

A call of `try_lock`, `try_share`, `try_acquire` or `try_acquire_many`, from its beginning to its
return, with any steps of other threads in between. -/
namespace Saa

open Word Lib.Linked Lib.Trace

/-- The words from which a call can acquire what it wants without queueing: nobody waits, and
there is room. -/
def Goal.Available : Goal → ℕ → Prop
  | .lock .exclusive, w => w = 0
  | .lock .shared, w => w < 62
  | .permits count, w => anchor w = 0 ∧ data w + count ≤ 63
  | _, _ => False

def Goal.amount : Goal → ℕ
  | .lock .exclusive => 63
  | .permits count => count
  | _ => 1

def acquisitions (t : Tid) (h : List Event) : ℕ :=
  h.countP fun e => match e with
    | .acquire u _ _ => u = t
    | _ => false

/-- How far a try call is. -/
inductive Tries (q : Req) (seen : ℕ → Prop) : Pc → ℕ → ℕ → Prop where
  | start : Tries q seen (.start q) 0 0
  | loop {state i : ℕ} : seen state → Tries q seen (.attempt q state i) 0 0
  | acquired : Tries q seen .idle 1 0
  | refused : Tries q seen .idle 0 1

section
variable {kind : Kind} {s s' s₀ s₁ : Cfg} {v : View} {t u : Tid} {h h₀ : List Event} {e : Event}
  {act : Action} {q : Req} {seen seen' : ℕ → Prop} {p : Pc} {n m : ℕ}

theorem Tries.mono (hx : Tries q seen p n m) (hle : ∀ w, seen w → seen' w) :
    Tries q seen' p n m := by
  cases hx with
  | start => exact .start
  | loop hs => exact .loop (hle _ hs)
  | acquired => exact .acquired
  | refused => exact .refused

theorem Tries.not_await (hx : Tries q seen p n m) {r : Req} {retry : Bool} :
    p ≠ .await r retry := by
  rintro rfl
  cases hx

end

end Saa
