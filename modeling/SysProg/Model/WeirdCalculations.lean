import SysProg.Library.Actions

/-! # Clients that let an actor square numbers

The actors of `akka/akka/src/main/scala/net/itsky`: `WeirdCalculationsApp.scala` creates a client
for each command `"c"` and shuts the system down with `"s"`. A client (`Client.scala`) orders the
square of its favorite number from the squarer (`Squarer.scala`), sleeps when it has the result,
and orders the next one, until its `PoisonPill` comes. -/

namespace SysProg.WeirdCalculations

/-- The messages of the squarer, of the clients and of akka. -/
inductive Message where
  | OrderSquare (x : ℤ)
  | OrderCube (x : ℤ)
  | Result (y : ℤ) (s : String)
  | NextCalculation
  | PoisonPill
  deriving DecidableEq, Repr

/-! ## The squarer -/

inductive SquarerLog where
  | squaring (msg : String)
  | cubing (msg : String)
  | badMessage
  deriving DecidableEq, Repr

def squareMsg (x : ℤ) : String :=
  let y := x * x
  "x=" ++ toString x ++ " y=x^2=" ++ toString y

def cubeMsg (x : ℤ) : String :=
  let y := x * x * x
  "x=" ++ toString x ++ " y=x^3=" ++ toString y

/-- What the squarer logs, and what it tells the sender. -/
def Squarer.receive : Message → SquarerLog × Option Message
  | .OrderSquare x => (.squaring (squareMsg x), some (.Result (x * x) (squareMsg x)))
  | .OrderCube x => (.cubing (cubeMsg x), some (.Result (x * x * x) (cubeMsg x)))
  | _ => (.badMessage, none)

/-- The messages come with their senders. -/
structure Squarer where
  running : Bool
  mailbox : List (ℕ × Message)
  log : List SquarerLog

def Squarer.tell (squarer : Squarer) (sender : ℕ) (msg : Message) : Squarer :=
  if squarer.running then { squarer with mailbox := squarer.mailbox ++ [(sender, msg)] }
  else squarer

/-! ## The clients -/

inductive ClientLog where
  | created
  | received (y : ℤ) (msg : String)
  | willSleep (msec : ℕ)
  | sending (x : ℤ)
  | unexpected (msg : Message)
  | goodBye
  deriving DecidableEq, Repr

inductive Status where
  /-- `actorOf` has returned, and the constructor is still to run. -/
  | starting
  | running
  | stopped
  deriving DecidableEq, Repr

structure Client where
  favoriteNumber : ℤ
  status : Status
  mailbox : List Message
  log : List ClientLog
  deriving DecidableEq, Repr

/-- What a client logs, orders from the squarer and schedules for itself. The clock is far from an
overflow. -/
structure Reaction where
  log : List ClientLog
  orders : List Message
  scheduled : List Message

def Client.receive (favoriteNumber : ℤ) (currentTimeMillis : ℕ) : Message → Reaction
  | .Result y msg =>
      let waitingTime := currentTimeMillis * 997 % 10000
      ⟨[.received y msg, .willSleep waitingTime], [], [.NextCalculation]⟩
  | .NextCalculation =>
      let correction : ℕ := currentTimeMillis * 851 % 100
      let x := favoriteNumber + correction - 50
      ⟨[.sending x], [.OrderSquare x], []⟩
  | msg => ⟨[.unexpected msg], [], []⟩

/-- A message to a client that has stopped is lost. -/
def Client.tell (msg : Message) (client : Client) : Client :=
  if client.status = .stopped then client
  else { client with mailbox := client.mailbox ++ [msg] }

def Client.stop (client : Client) : Client :=
  { client with status := .stopped, mailbox := [], log := client.log ++ [.goodBye] }

/-! ## The system -/

/-- Where the main thread is in `commandLoop`. -/
inductive Main where
  | reading (commands : List String)
  /-- `actorOf` has returned the client, and its `PoisonPill` is still to be scheduled. -/
  | created (client : ℕ) (commands : List String)
  | shutDown
  deriving DecidableEq, Repr

/-- The main thread with the lines that are still to be read, the actors, and what the scheduler
has still to send. -/
structure State where
  main : Main
  clients : List Client
  squarer : Squarer
  scheduler : List (ℕ × Message)

def start (commands : List String) : State :=
  ⟨.reading commands, [], ⟨true, [], []⟩, []⟩

inductive Action where
  /-- A turn of `commandLoop`, with the command `"c"` until `actorOf` has returned. -/
  | command (currentTimeMillis : ℕ)
  /-- The rest of the turn with the command `"c"`. -/
  | scheduleOnce
  /-- The constructor of a client. -/
  | create (i : ℕ)
  | client (i currentTimeMillis : ℕ)
  | squarer
  /-- The time of a scheduled message has come. -/
  | fire (i : ℕ) (msg : Message)
  /-- The shutdown reaches a client, or the squarer. -/
  | stopClient (i : ℕ)
  | stopSquarer
  deriving DecidableEq, Repr

def command (currentTimeMillis : ℕ) (s : State) : Option State :=
  match s.main with
  -- `readLine` returns `null`, which is not understood
  | .reading [] => some s
  | .reading ("c" :: commands) =>
      let fn : ℤ := (currentTimeMillis * 731 % 100 + 50 : ℕ)
      some { s with
        main := .created s.clients.length commands
        clients := s.clients ++ [⟨fn, .starting, [], []⟩] }
  | .reading ("s" :: _) => some { s with main := .shutDown }
  | .reading (_ :: commands) => some { s with main := .reading commands }
  | _ => none

def scheduleOnce (s : State) : Option State :=
  match s.main with
  | .created client commands =>
      some { s with
        main := .reading commands
        scheduler := s.scheduler ++ [(client, .PoisonPill)] }
  | _ => none

def create (i : ℕ) (client : Client) (s : State) : Option State :=
  if client.status = .starting then
    some { s with
      clients := s.clients.set i { client with status := .running, log := client.log ++ [.created] }
      squarer := s.squarer.tell i (.OrderSquare client.favoriteNumber) }
  else none

def receive (i currentTimeMillis : ℕ) (client : Client) (s : State) : Option State :=
  match client.status, client.mailbox with
  | .running, .PoisonPill :: _ => some { s with clients := s.clients.set i client.stop }
  | .running, msg :: mailbox =>
      let reaction := Client.receive client.favoriteNumber currentTimeMillis msg
      some { s with
        clients := s.clients.set i { client with mailbox, log := client.log ++ reaction.log }
        squarer := reaction.orders.foldl (fun squarer msg => squarer.tell i msg) s.squarer
        scheduler := s.scheduler ++ reaction.scheduled.map (i, ·) }
  | _, _ => none

def tellSender (sender : ℕ) (answer : Option Message) (clients : List Client) : List Client :=
  match answer with
  | some answer => clients.modify sender (Client.tell answer)
  | none => clients

def square (s : State) : Option State :=
  match s.squarer.running, s.squarer.mailbox with
  | true, (sender, msg) :: mailbox =>
      some { s with
        clients := tellSender sender (Squarer.receive msg).2 s.clients
        squarer := { s.squarer with
          mailbox
          log := s.squarer.log ++ [(Squarer.receive msg).1] } }
  | _, _ => none

def fire (i : ℕ) (msg : Message) (s : State) : Option State :=
  if (i, msg) ∈ s.scheduler then
    some { s with
      clients := s.clients.modify i (Client.tell msg)
      scheduler := s.scheduler.erase (i, msg) }
  else none

def stopClient (i : ℕ) (client : Client) (s : State) : Option State :=
  if s.main = .shutDown ∧ client.status = .running then
    some { s with clients := s.clients.set i client.stop }
  else none

def stopSquarer (s : State) : Option State :=
  if s.main = .shutDown ∧ s.squarer.running then
    some { s with squarer := { s.squarer with running := false, mailbox := [] } }
  else none

def step (s : State) : Action → Option State
  | .command currentTimeMillis => command currentTimeMillis s
  | .scheduleOnce => scheduleOnce s
  | .create i => s.clients[i]?.bind fun client => create i client s
  | .client i currentTimeMillis => s.clients[i]?.bind fun client => receive i currentTimeMillis client s
  | .squarer => square s
  | .fire i msg => fire i msg s
  | .stopClient i => s.clients[i]?.bind fun client => stopClient i client s
  | .stopSquarer => stopSquarer s

def Step : State → State → Prop :=
  Acts step

end SysProg.WeirdCalculations
