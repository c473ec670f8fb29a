import PacketTrust.Validation.Validator

/-! Runs of sessions against a network that answers from a script, then from the packets published
in it, in a time of their own that moves only while all of them pause. Sessions that run side by
side take turns, the one whose pause ends first going on first. -/

namespace PacketTrust

/-- An Interest that was sent, and when. -/
structure Expressed where
  interest : Interest
  /-- In nanoseconds. -/
  time : Nat
deriving DecidableEq, Repr

structure Network where
  script : List Response := []
  published : List Data := []
  expressed : List Expressed := []
  /-- In nanoseconds. -/
  time : Nat := 0
  /-- The longest that a session can be made to sleep; as a rule, thirty years of 365 days. -/
  longestSleep : Duration := .ofSeconds 946080000
deriving DecidableEq, Repr

namespace Network

/-- The next response of the script, else the first packet that matches. -/
def respond (n : Network) (i : Interest) : Response × Network :=
  let n := { n with expressed := n.expressed ++ [(⟨i, n.time⟩ : Expressed)] }
  match n.script with
  | response :: script => (response, { n with script })
  | [] =>
    match n.published.find? i.matchesData with
    | some d => (.data d, n)
    | none => (.timeout, n)

/-- How long a pause takes, in nanoseconds. -/
def sleep (n : Network) (pause : Duration) : Nat := min pause.nanoseconds n.longestSleep.nanoseconds

/-- Lets time pass up to a moment. -/
def wait (n : Network) (time : Nat) : Network := { n with time := max n.time time }

end Network

/-- The world and the network around it. -/
structure Surroundings where
  world : World
  network : Network := {}

/-- A session, and what became of it when it last ran. -/
inductive Task where
  | ended (session : Session)
  | faulted (fault : Fault)
  /-- Goes on at a time. -/
  | asleep (session : Session) (attempt : Attempt) (time : Nat)
  /-- Was stopped before it could go on. -/
  | unfinished (session : Session)

/-- What stopped a session short of its end. -/
def Task.fault? : Task → Option Fault
  | faulted fault => some fault
  | _ => none

namespace Run

/-- Runs a session until it ends or pauses; pauses of no length do not count. -/
def untilPause (v : Validator) : (fuel : Nat) → Act Scene Status → Session → Surroundings →
    Task × Surroundings
  | fuel, act, session, around =>
    match act ⟨session, around.world⟩ with
    | .error fault s => (.faulted fault, { around with world := s.world })
    | .ok .ended s => (.ended s.session, { around with world := s.world })
    | .ok (.waiting p) s =>
      match fuel, p with
      | 0, _ => (.unfinished s.session, { around with world := s.world })
      | fuel + 1, .pause a =>
        let pause := around.network.sleep a.request.pause
        if pause = 0 then
          untilPause v fuel (v.wake a) s.session { around with world := s.world }
        else
          (.asleep s.session a (around.network.time + pause),
            { around with world := s.world })
      | fuel + 1, .answer a =>
        let (response, network) := around.network.respond a.request.interest
        untilPause v fuel (v.receive a response) s.session ⟨s.world, network⟩

/-- Starts sessions one after the other. -/
def startAll (v : Validator) (fuel : Nat) : List Session → Surroundings → List Task × Surroundings
  | [], around => ([], around)
  | s :: rest, around =>
    let (task, around) := untilPause v fuel v.start s around
    let (tasks, around) := startAll v fuel rest around
    (task :: tasks, around)

/-- The end of the first pause to end, if a task pauses. -/
def firstWake : List Task → Option Nat
  | [] => none
  | .asleep _ _ time :: rest => some ((firstWake rest).elim time (min time))
  | _ :: rest => firstWake rest

/-- Wakes the first task that pauses until a time; it goes behind all others. -/
def wakeFirst (v : Validator) (fuel time : Nat) : List Task → Surroundings →
    List Task × Option Task × Surroundings
  | [], around => ([], none, around)
  | .asleep s a t :: rest, around =>
    if t = time then
      let around := { around with network := around.network.wait time }
      let (task, around) := untilPause v fuel (v.wake a) s around
      (rest, some task, around)
    else
      let (rest, woken, around) := wakeFirst v fuel time rest around
      (.asleep s a t :: rest, woken, around)
  | task :: rest, around =>
    let (rest, woken, around) := wakeFirst v fuel time rest around
    (task :: rest, woken, around)

/-- Runs tasks until none of them pauses. -/
def untilEnd (v : Validator) : (fuel : Nat) → List Task → Surroundings → List Task × Surroundings
  | 0, tasks, around => (tasks, around)
  | fuel + 1, tasks, around =>
    match firstWake tasks with
    | none => (tasks, around)
    | some time =>
      let (rest, woken, around) := wakeFirst v fuel time tasks around
      untilEnd v fuel (rest ++ woken.toList) around

/-- Runs sessions side by side to their ends. -/
def together (v : Validator) (fuel : Nat) (sessions : List Session) (around : Surroundings) :
    List Task × Surroundings :=
  let (tasks, around) := startAll v fuel sessions around
  untilEnd v fuel tasks around

/-- Runs one session to its end. -/
def alone (v : Validator) (fuel : Nat) (session : Session) (around : Surroundings) :
    Task × Surroundings :=
  match together v fuel [session] around with
  | (task :: _, around) => (task, around)
  | ([], around) => (.unfinished session, around)

/-- What goes on after a wait: the answer of the network, or the end of the pause. -/
def resume (f : Fetcher) (n : Network) : Pending → Act World Progress × Network
  | .answer a =>
    let (response, n) := n.respond a.request.interest
    (f.receive a response, n)
  | .pause a => (f.wake a, n.wait (n.time + n.sleep a.request.pause))

/-- Runs a retrieval from where it has got to until it has waited so many times. -/
def retrieve (f : Fetcher) : (waits : Nat) → Progress → Surroundings →
    (Except Fault (Except ValidationError Certificate)) × Surroundings
  | _, .found c, around => (.ok (.ok c), around)
  | _, .failed e, around => (.ok (.error e), around)
  | 0, .pending p, around => (.ok (.error (Fetcher.exhausted p.attempt.request)), around)
  | waits + 1, .pending p, around =>
    let (act, network) := resume f around.network p
    match act around.world with
    | .error fault world => (.error fault, ⟨world, network⟩)
    | .ok progress world => retrieve f waits progress ⟨world, network⟩

/-- Runs a retrieval to its end. -/
def fetch (f : Fetcher) (act : Act World Progress) (around : Surroundings) :
    (Except Fault (Except ValidationError Certificate)) × Surroundings :=
  match act around.world with
  | .error fault world => (.error fault, { around with world })
  | .ok progress world => retrieve f progress.waits progress { around with world }

end Run

/-- What a caller gets to know of a packet. -/
inductive Finding where
  | valid (packet : Packet)
  | invalid (error : ValidationError)
deriving DecidableEq, Repr

namespace Finding

/-- The packet, if a success was reported, else the error that was. -/
def ofEvents (p : Packet) : List Event → Finding
  | [] => .invalid ⟨.implementation, "Validation ended without an outcome"⟩
  | .success _ :: _ => .valid p
  | .failure _ e :: _ => .invalid e
  | .hook .. :: rest => ofEvents p rest

end Finding

namespace Run

/-- Validates a packet and tells the finding; its callbacks leave no events. -/
def check (v : Validator) (fuel : Nat) (p : Packet) (around : Surroundings) :
    Except Fault Finding × Surroundings :=
  let before := around.world.events
  let quiet := { around with world := { around.world with events := [] } }
  let (task, around) := alone v fuel { packet := p } quiet
  let events := around.world.events
  let around := { around with world := { around.world with events := before } }
  match task with
  | .faulted fault => (.error fault, around)
  | _ => (.ok (.ofEvents p events), around)

end Run

end PacketTrust
