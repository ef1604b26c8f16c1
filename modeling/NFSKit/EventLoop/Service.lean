import NFSKit.EventLoop.Conditions
import NFSKit.Foundations.Endless

/-!
# A loop that is served

What the loop relies on in the long run: libnfs and the server do their part, and the queue is not starved.
-/

namespace NFSKit

open Machine

structure Serviced {s : State} (ρ : Endless step s) : Prop where
  /-- Every call returns, so that every queue block ends. -/
  returns : ∀ k, ∃ l, k ≤ l ∧ (ρ.state l).stack = []
  /-- libnfs settles what it holds. -/
  settles : ∀ k cb, (ρ.state k).Holds cb → ∃ l, k ≤ l ∧ ¬ (ρ.state l).Holds cb
  answersAll : ∀ k, AnswersAll (ρ.state k) (ρ.event k)
  keepsDraining : ∀ k, KeepsDraining (ρ.state k) (ρ.event k)
  /-- Where operations of a category are queued for ever, there comes an end to those that pass the
  queue. -/
  pauses : ∀ c k, (∀ l, k ≤ l → ∃ op ∈ (ρ.state l).pendingOperations, op.category = c) →
    ∃ m, ∀ l, m ≤ l → directs (ρ.state l) (ρ.event l) ≠ some c

end NFSKit
