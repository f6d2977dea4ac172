import RobotMachine.Service.Request

/-!
# The queue of a service

Requests wait in the order in which they were sent. Each carries the epoch in which it was sent; a
cancellation of everything sent so far begins a new epoch, and a request of an earlier epoch is
cancelled.

* `Service.answerNext`, `Service.answerAll`: the service at work.
-/

namespace RobotMachine

/-- A request in the epoch in which it was sent. -/
structure Ticket where
  epoch : Nat
  request : Request
  deriving DecidableEq

/-- An emulator with the requests that wait for it, the oldest first. -/
structure Service where
  emulator : Emulator := {}
  epoch : Nat := 0
  waiting : List Ticket := []
  deriving DecidableEq

namespace Service

def send (s : Service) (r : Request) : Service :=
  { s with waiting := s.waiting ++ [⟨s.epoch, r⟩] }

/-- Cancels all that was sent before. -/
def cancel (s : Service) : Service :=
  { s with epoch := s.epoch + 1 }

/-- The answer to a ticket when nothing more is cancelled while it is served than what the given
cancellation says. -/
def serve (epoch : Nat) (e : Emulator) (during : Cancellation) (t : Ticket) : Served Answer :=
  t.request.serve (if t.epoch = epoch then during else .atPause 0) e

/-- Answers the oldest waiting request, which may be cancelled while it is served. -/
def answerNext (s : Service) (during : Cancellation) :
    Option (Except ServiceError Answer × Service) :=
  match s.waiting with
  | [] => none
  | ticket :: waiting =>
    let (answer, emulator) := serve s.epoch s.emulator during ticket
    some (answer, { s with emulator, waiting })

/-- Answers tickets in order. -/
def serveAll (epoch : Nat) : Emulator → List Ticket → List (Except ServiceError Answer) × Emulator
  | e, [] => ([], e)
  | e, ticket :: tickets =>
    let (answer, e) := serve epoch e .never ticket
    let (answers, e) := serveAll epoch e tickets
    (answer :: answers, e)

/-- Answers all waiting requests, oldest first. -/
def answerAll (s : Service) : List (Except ServiceError Answer) × Service :=
  let (answers, emulator) := serveAll s.epoch s.emulator s.waiting
  (answers, { s with emulator, waiting := [] })

end Service

end RobotMachine
