import RobotMachine.Proofs.FreshLoad
import RobotMachine.Proofs.InterruptedRun
import RobotMachine.Service.Queue

/-!
# A service at work

Clients send requests and cancel what they have sent, in any order, and then the service takes up
what waits for it. It answers by comparing epochs and with loops of its own for runs and loads.
Neither shows: a request with a cancellation behind it is declined, any other is what the emulator
itself makes of it, and each is handled by the emulator that the one before it left.

* `Emulator.perform`, `Emulator.decline`: the two ways to handle a request.
* `Service.Works`: the service takes up one request after the other until none waits.
* `Service.works_sequentially`: what it answers and leaves.
-/

namespace RobotMachine

namespace Emulator

/-! ## Handling a request -/

/-- Resets, takes the program if there is one and loads it, and resets again if loading fails. -/
def loadAfresh (e : Emulator) (program : Except AssemblyError Program) : Served Answer :=
  let e := e.resetInPlace
  match program with
  | .error err => (.error (.assembly err), e)
  | .ok p =>
    match e.loadProgramInPlace p with
    | (.ok (), e) => (.ok (.report (e.report [])), e)
    | (.error err, e) => (.error (.machine err), e.resetInPlace)

/-- A request as the emulator carries it out by its own operations. -/
def perform (e : Emulator) : Request → Served Answer
  | .reset => (.ok (.report (e.resetInPlace.report [])), e.resetInPlace)
  | .loadSource source => e.loadAfresh (assemble source)
  | .loadProgram p => e.loadAfresh (.ok p)
  | .step => .ofAttempt .report e.step
  | .stepBack => .ofAttempt .report e.stepBack
  | .replayToStart => .ofAttempt (fun (n, r) => .replayed n r) e.replayToStart
  | .run budget => .ofAttempt .summary (e.run budget)
  | .snapshot => (.ok (.snapshot e.snapshot), e)
  | .registers => (.ok (.registers e.machine.registers), e)
  | .readMemory address length => .ofAttempt .bytes (e.readMemory address length, e)
  | .writeMemory address bytes =>
    .ofAttempt (fun () => .done) (e.orKeep (e.writeMemory address bytes))

/-- What becomes of a cancelled request: one that only looks is answered all the same, a load leaves
the emulator reset, and any other leaves it as it was. -/
def decline (e : Emulator) (r : Request) : Served Answer :=
  match r with
  | .snapshot | .registers | .readMemory _ _ => e.perform r
  | .loadSource _ | .loadProgram _ => (.error .cancelled, e.resetInPlace)
  | .reset | .step | .stepBack | .replayToStart | .run _ | .writeMemory _ _ =>
    (.error .cancelled, e)

def handle (e : Emulator) (r : Request) (cancelled : Bool) : Served Answer :=
  if cancelled then e.decline r else e.perform r

/-- Handles requests in order, each with whether it is cancelled. The log has the request and the
answer, request by request. -/
def handleAll (e : Emulator) :
    List (Request × Bool) → List (Request × Except ServiceError Answer) × Emulator
  | [] => ([], e)
  | (r, cancelled) :: sent =>
    let (answer, e) := e.handle r cancelled
    let (log, e) := e.handleAll sent
    ((r, answer) :: log, e)

theorem map_fst_handleAll (e : Emulator) (sent : List (Request × Bool)) :
    (e.handleAll sent).1.map Prod.fst = sent.map Prod.fst := by
  induction sent generalizing e with
  | nil => rfl
  | cons first sent ih =>
    rw [handleAll, List.map_cons, List.map_cons, ih]

theorem loadAfresh_eq_serveLoad (e : Emulator) (p : Program) (pauses : Nat) :
    e.loadAfresh (.ok p) = Served.map .report (e.serveLoad .never pauses p) := by
  rw [← serveLoadInPlace_eq, loadAfresh, serveLoadInPlace, Cancellation.isDue,
    if_neg Bool.false_ne_true]
  rcases e.resetInPlace.loadProgramInPlace p with ⟨err | loaded, e'⟩
  · rfl
  · rfl

theorem loadAfresh_eq_serveLoadSource (e : Emulator) (source : String) :
    e.loadAfresh (assemble source) = Served.map .report (e.serveLoadSource .never source) := by
  rw [serveLoadSource, Cancellation.isDue, if_neg Bool.false_ne_true]
  cases assemble source with
  | ok p => exact e.loadAfresh_eq_serveLoad p 1
  | error err =>
    rw [loadAfresh, resetInPlace_eq]
    rfl

theorem attemptWrite_eq_orKeep (e : Emulator) (address : UInt32) (bytes : List UInt8) :
    e.attemptWrite address bytes = e.orKeep (e.writeMemory address bytes) := by
  rw [attemptWrite]
  cases e.writeMemory address bytes with
  | ok written => rfl
  | error err => rfl

end Emulator

/-- A request that is not cancelled is carried out by the emulator. -/
theorem Request.serve_never (r : Request) (e : Emulator) : r.serve .never e = e.perform r := by
  cases r with
  | reset => rw [Emulator.perform, e.resetInPlace_eq]; rfl
  | loadSource source => exact (e.loadAfresh_eq_serveLoadSource source).symm
  | loadProgram p => exact (e.loadAfresh_eq_serveLoad p 0).symm
  | run budget =>
    have ran : e.serveRun .never budget = .ofAttempt id (e.run budget) :=
      Emulator.serveRun_eq_run rfl fun _ _ _ => rfl
    rw [serve, ran, Served.map_ofAttempt]
    rfl
  | writeMemory address bytes =>
    rw [serve, e.attemptWrite_eq_orKeep]
    rfl
  | _ => rfl

/-- A request that is cancelled before it starts is declined. -/
theorem Request.serve_atPause_zero (r : Request) (e : Emulator) :
    r.serve (.atPause 0) e = e.decline r := by
  cases r with
  | loadSource source => rw [Emulator.decline, e.resetInPlace_eq]; rfl
  | loadProgram p => rw [Emulator.decline, e.resetInPlace_eq]; rfl
  | _ => rfl

/-! ## Sending and cancelling -/

/-- What a client does. -/
inductive Event
  | send (r : Request)
  | cancel
  deriving DecidableEq

/-- The requests that events send, the oldest first, each with whether a cancellation follows. -/
def Event.sent : List Event → List (Request × Bool)
  | [] => []
  | .send r :: later => (r, decide (.cancel ∈ later)) :: sent later
  | .cancel :: later => sent later

theorem Event.count_cancel_send (r : Request) (later : List Event) :
    (send r :: later).count .cancel = later.count .cancel := by
  have other : send r ≠ cancel := by
    intro same
    cases same
  exact List.count_cons_of_ne other

namespace Service

variable {s s' : Service} {log : List (Request × Except ServiceError Answer)}

def issue (s : Service) : Event → Service
  | .send r => s.send r
  | .cancel => s.cancel

def issueAll (s : Service) (events : List Event) : Service :=
  events.foldl issue s

/-- The tickets of the requests that events send, where the first of them is in the given epoch. -/
def ticketsFrom (epoch : Nat) : List Event → List Ticket
  | [] => []
  | .send r :: later => ⟨epoch, r⟩ :: ticketsFrom epoch later
  | .cancel :: later => ticketsFrom (epoch + 1) later

theorem issueAll_eq (s : Service) (events : List Event) :
    s.issueAll events =
      { s with
        epoch := s.epoch + events.count .cancel
        waiting := s.waiting ++ ticketsFrom s.epoch events } := by
  induction events generalizing s with
  | nil =>
    rw [ticketsFrom, List.append_nil]
    rfl
  | cons event later ih =>
    rw [issueAll, List.foldl_cons]
    cases event with
    | send r =>
      rw [ticketsFrom, Event.count_cancel_send, List.append_cons]
      exact ih (s.send r)
    | cancel =>
      rw [ticketsFrom, List.count_cons_self, ← Nat.add_assoc, Nat.add_right_comm]
      exact ih s.cancel

/-! ## Taking up requests -/

/-- The service takes up waiting requests, the oldest first, until none is left, and nothing is
cancelled meanwhile. -/
inductive Works : Service → List (Request × Except ServiceError Answer) → Service → Prop
  | idle {s : Service} : s.answerNext .never = none → Works s [] s
  | next {s next s' : Service} {ticket : Ticket} {waiting : List Ticket}
    {answer : Except ServiceError Answer} {log : List (Request × Except ServiceError Answer)} :
    s.waiting = ticket :: waiting → s.answerNext .never = some (answer, next) →
    Works next log s' → Works s ((ticket.request, answer) :: log) s'

theorem works_nil_iff {e : Emulator} {epoch : Nat} :
    Works ⟨e, epoch, []⟩ log s' ↔ log = [] ∧ s' = ⟨e, epoch, []⟩ := by
  constructor
  · intro works
    cases works with
    | idle => exact ⟨rfl, rfl⟩
    | next waits => cases waits
  · rintro ⟨rfl, rfl⟩
    exact .idle rfl

/-- The oldest request is answered, and the others wait for the emulator that it leaves. -/
theorem works_cons_iff {e : Emulator} {epoch : Nat} {ticket : Ticket} {waiting : List Ticket} :
    Works ⟨e, epoch, ticket :: waiting⟩ log s' ↔
      ∃ rest, log = (ticket.request, (serve epoch e .never ticket).1) :: rest ∧
        Works ⟨(serve epoch e .never ticket).2, epoch, waiting⟩ rest s' := by
  constructor
  · intro works
    cases works with
    | idle stopped => cases stopped
    | next waits answered works =>
      cases waits
      cases answered
      exact ⟨_, rfl, works⟩
  · rintro ⟨rest, rfl, works⟩
    exact .next rfl rfl works

theorem Works.answerAll_eq (works : Works s log s') :
    s.answerAll = (log.map Prod.snd, s') := by
  induction works with
  | @idle s stopped =>
    obtain ⟨e, epoch, waiting⟩ := s
    cases waiting with
    | nil => rfl
    | cons ticket waiting => cases stopped
  | @next s next s' ticket waiting answer log waits answered _ ih =>
    obtain ⟨e, epoch, _⟩ := s
    cases waits
    cases answered
    have served := Prod.ext_iff.mp ih
    rw [answerAll] at served ⊢
    exact Prod.ext (congrArg (_ :: ·) served.1) served.2

/-- A ticket is of an earlier epoch exactly if a cancellation follows its request. -/
theorem serve_ticket (e : Emulator) (epoch : Nat) (r : Request) (later : List Event) :
    serve (epoch + later.count .cancel) e .never ⟨epoch, r⟩ =
      e.handle r (decide (.cancel ∈ later)) := by
  rw [serve, Emulator.handle]
  by_cases cancelled : .cancel ∈ later
  · have earlier : epoch ≠ epoch + later.count .cancel := by
      have counted : 0 < later.count .cancel := List.count_pos_iff.mpr cancelled
      omega
    rw [if_neg earlier, if_pos (decide_eq_true cancelled), r.serve_atPause_zero]
  · rw [List.count_eq_zero.mpr cancelled, Nat.add_zero, if_pos rfl, decide_eq_false cancelled,
      if_neg Bool.false_ne_true, r.serve_never]

theorem works_tickets_iff (e : Emulator) (epoch : Nat) (events : List Event) :
    Works ⟨e, epoch + events.count .cancel, ticketsFrom epoch events⟩ log s' ↔
      log = (e.handleAll (Event.sent events)).1 ∧
        s' = ⟨(e.handleAll (Event.sent events)).2, epoch + events.count .cancel, []⟩ := by
  induction events generalizing e epoch log with
  | nil => exact works_nil_iff
  | cons event later ih =>
    cases event with
    | send r =>
      rw [ticketsFrom, Event.sent, Event.count_cancel_send, works_cons_iff, serve_ticket,
        Emulator.handleAll]
      simp only [ih]
      constructor
      · rintro ⟨rest, rfl, rfl, rfl⟩
        exact ⟨rfl, rfl⟩
      · rintro ⟨rfl, rfl⟩
        exact ⟨_, rfl, rfl, rfl⟩
    | cancel =>
      rw [ticketsFrom, Event.sent, List.count_cons_self, ← Nat.add_assoc, Nat.add_right_comm]
      exact ih e (epoch + 1)

/-- **A service is a sequential emulator.** Whatever is sent and cancelled before the service takes
up the first request, it gives one answer to each request, in the order of sending. A request with a
cancellation behind it is declined, and any other is carried out as by the emulator alone, each on
the emulator that the requests before it leave. -/
theorem works_sequentially (e : Emulator) (epoch : Nat) (events : List Event) :
    ∃ log e', e.handleAll (Event.sent events) = (log, e') ∧
      log.map Prod.fst = (Event.sent events).map Prod.fst ∧
      (∀ log' s', Works (issueAll ⟨e, epoch, []⟩ events) log' s' ↔
        log' = log ∧ s' = ⟨e', epoch + events.count .cancel, []⟩) ∧
      (issueAll ⟨e, epoch, []⟩ events).answerAll =
        (log.map Prod.snd, ⟨e', epoch + events.count .cancel, []⟩) := by
  have works_iff {log' : List (Request × Except ServiceError Answer)} {s' : Service} :
      Works (issueAll ⟨e, epoch, []⟩ events) log' s' ↔
        log' = (e.handleAll (Event.sent events)).1 ∧
          s' = ⟨(e.handleAll (Event.sent events)).2, epoch + events.count .cancel, []⟩ := by
    rw [issueAll_eq, List.nil_append]
    exact works_tickets_iff e epoch events
  refine ⟨_, _, rfl, e.map_fst_handleAll _, fun _ _ => works_iff, ?_⟩
  exact (works_iff.mpr ⟨rfl, rfl⟩).answerAll_eq

example :
    (issueAll {} [.send .reset, .send .registers, .cancel, .send .reset, .send .step]).answerAll.1.map
      Except.isOk = [false, true, true, false] := by
  decide +kernel

end Service

end RobotMachine
