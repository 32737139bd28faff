import Verbatim.Item.Basic

/-!
# Paths

A path leads from an item to one below it: names into tables, positions into sequences. Positions below zero count from the
end.
-/

namespace Verbatim

inductive Segment where
  | name (s : String)
  | position (n : Int)
  | other
  deriving Repr, DecidableEq

inductive PathError where
  | missing (name : String)
  /-- A sequence has no element at the position. -/
  | outOfRange
  /-- A step that the item does not allow. -/
  | misfit
  deriving Repr, DecidableEq

/-- The place that a position stands for in a sequence of some length. -/
def position? (length : Nat) (n : Int) : Option Nat :=
  if 0 ≤ n then if n < length then some n.toNat else none
  else if 0 ≤ length + n then some (length + n).toNat
  else none

namespace Item

/-- The elements of an array or array of tables. -/
def elements? : Item → Option (List Item)
  | .array _ _ vs => some vs
  | .arrayOfTables _ ts => some ts
  | _ => none

def withElements (xs : List Item) : Item → Item
  | .array i f _ => .array i f xs
  | .arrayOfTables i _ => .arrayOfTables i xs
  | x => x

def step (x : Item) : Segment → Except PathError Item
  | .name s =>
    if x.isMapping then
      match x.get? s with
      | some y => .ok y
      | none => .error (.missing s)
    else .error .misfit
  | .position n =>
    match x.elements? with
    | none => .error .misfit
    | some ys =>
      match (position? ys.length n).bind fun i => ys[i]? with
      | some y => .ok y
      | none => .error .outOfRange
  | .other => .error .misfit

def follow (x : Item) : List Segment → Except PathError Item
  | [] => .ok x
  | s :: path =>
    match x.step s with
    | .error e => .error e
    | .ok y => y.follow path

theorem follow_append (x : Item) (p q : List Segment) :
    x.follow (p ++ q) = (x.follow p).bind fun y => y.follow q := by
  induction p generalizing x with
  | nil => rfl
  | cons s p ih =>
    simp only [List.cons_append, follow]
    cases x.step s with
    | error e => rfl
    | ok y => exact ih y

/-! ## Leading path -/

mutual

/-- The names met when always the first entry is entered, as long as it is a table; none if a table is empty. -/
def leadingPath? : Item → Option (List String)
  | .table _ _ es => leadingEntries? es
  | .scalar .. | .array .. | .inlineTable .. | .arrayOfTables .. => some []

def leadingEntries? : List (Entry Item) → Option (List String)
  | [] => none
  | ⟨k, x, _, _, _⟩ :: _ => (leadingPath? x).map (k.name :: ·)

end

end Item

end Verbatim
