/-! # Memo tables

A memo table keeps answers that were computed before under the text they were computed from. A
bounded table forgets the answers that were asked for longest ago. Main notions:

* `Memo.find?`: the answer kept for a key;
* `Memo.keep`: adds an answer in front, within a bound if there is one;
* `Memo.consult`: the answer for a key, computed if it is not kept, and the table afterwards;
* `Memo.attempt`: the same with a computation that can fail; a failure is not kept.
-/

namespace GraphCalc
set_option autoImplicit false

/-- Answers kept under their keys, the most recently used first. -/
structure Memo (β : Type) where
  entries : List (String × β)

namespace Memo
variable {β : Type}

def empty : Memo β := ⟨[]⟩

def find? (memo : Memo β) (key : String) : Option β := memo.entries.lookup key

/-- The table with an answer in front, cut to the bound. -/
def keep (bound : Option Nat) (key : String) (answer : β) (memo : Memo β) : Memo β :=
  let entries := (key, answer) :: memo.entries.filter (·.1 != key)
  ⟨match bound with
    | some n => entries.take n
    | none => entries⟩

/-- The answer for a key and the table that keeps it. -/
def consult (bound : Option Nat) (compute : String → β) (key : String) (memo : Memo β) :
    β × Memo β :=
  let answer := match memo.find? key with
    | some answer => answer
    | none => compute key
  (answer, memo.keep bound key answer)

/-- The answer for a key, or the failure to compute it, and the table that keeps an answer. -/
def attempt {ε : Type} (bound : Option Nat) (compute : String → Except ε β) (key : String)
    (memo : Memo β) : Except ε β × Memo β :=
  let outcome : Except ε β := match memo.find? key with
    | some answer => .ok answer
    | none => compute key
  match outcome with
  | .ok answer => (.ok answer, memo.keep bound key answer)
  | .error e => (.error e, memo)

end Memo
end GraphCalc
