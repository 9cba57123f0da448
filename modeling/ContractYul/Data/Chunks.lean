/-!
# Chunks of a list

Cutting a list into pieces of a fixed length; only the last piece may be shorter.
-/

namespace ContractYul

/-- Cuts `xs` into pieces of `n`, with `piece` (reversed, `room` short of full) already begun. -/
def chunksFrom {α : Type} (n : Nat) : (room : Nat) → (piece : List α) → List α → List (List α)
  | _, [], [] => []
  | _, piece, [] => [piece.reverse]
  | 0, piece, x :: xs => piece.reverse :: chunksFrom n (n - 1) [x] xs
  | room + 1, piece, x :: xs => chunksFrom n room (x :: piece) xs

/-- Cuts a list into pieces of `n` elements, the last one possibly shorter. -/
def chunks {α : Type} (n : Nat) (xs : List α) : List (List α) :=
  chunksFrom n n [] xs

end ContractYul
