import RingList.Session.Step

/-!
# Whole sessions

A session starts without lists and carries out commands one after another. At its end the states of
the lists that are left are reported, and then these lists are dropped in the order of their numbers.
-/

set_option autoImplicit false

namespace RingList.Session

/-- What is reported of a whole session. -/
structure Transcript where
  steps : List Report
  final : List ListState
  drops : List Report

def start (type : ValueType) (bases : Array String) (budgets : Option (Array (Option Nat))) :
    Session :=
  { type, bases, limited := budgets.isSome, world := .start (budgets.getD #[]) {} }

def steps (s : Session) : List Command → List Report × Session
  | [] => ([], s)
  | command :: commands =>
    let (report, s) := s.step command
    let (reports, s) := s.steps commands
    (report :: reports, s)

def finalStates (s : Session) : List ListState :=
  match statesOf false (s.liveLists.map (·.1)) s with
  | .ok states _ => states
  | .error _ _ => []

/-- Carries out commands, and then drops the lists that are left. -/
def transcript (s : Session) (commands : List Command) : Transcript :=
  let (steps, s) := s.steps commands
  let (drops, _) := s.steps (s.liveLists.map fun (n, _) => .toList (some n) .drop)
  { steps, final := s.finalStates, drops }

end RingList.Session
