import ZigMarkup.Text.Utf8

/-!
One loop for all searches through a text. A walk visits positions from left to right;
at each one the visitor stops with a result or says how far to go on. The scans for
brackets, template roots and island markers are all walks with their own visitors.
-/
namespace ZigMarkup

inductive Move (σ α : Type) where
  | stop (result : α)
  | go (length : Nat) (state : σ)

variable {σ α : Type}

/-- The walk at `offset` bytes from its start, with `skip` bytes still to pass over. The
visitor sees the state, the offset, the next byte and what follows it. Going on by zero bytes
counts as going on by one. -/
def walkFrom (visit : σ → Nat → UInt8 → Bytes → Move σ α) (finish : σ → Nat → α) :
    Nat → σ → Nat → Bytes → α
  | _, state, offset, [] => finish state offset
  | skip + 1, state, offset, _ :: rest => walkFrom visit finish skip state (offset + 1) rest
  | 0, state, offset, b :: rest =>
    match visit state offset b rest with
    | .stop result => result
    | .go length next => walkFrom visit finish (length - 1) next (offset + 1) rest

def walk (visit : σ → Nat → UInt8 → Bytes → Move σ α) (finish : σ → Nat → α) (state : σ)
    (text : Bytes) : α :=
  walkFrom visit finish 0 state 0 text

end ZigMarkup
