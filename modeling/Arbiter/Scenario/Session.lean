import Arbiter.Metrics.Exposition
import Arbiter.Scenario

namespace Arbiter

namespace Scenario

inductive Store where
  | plain (c : Cache String)
  | decisions (d : Decisions String)

namespace Store

def cache : Store → Cache String
  | .plain c => c
  | .decisions d => d.cache

def setCache (c : Cache String) : Store → Store
  | .plain _ => .plain c
  | .decisions d => .decisions { d with cache := c }

def decisions? : Store → Option (Decisions String)
  | .plain _ => none
  | .decisions d => some d

end Store

inductive Thread where
  | waiting (call : Call Step) (load : Ticket)
  | finished (report : Report Answer)

structure Session where
  store : Store
  clock : Clock
  manual : Instant
  tokens : Tokens
  calls : Nat
  threads : Std.TreeMap String Thread
  observed : Bool

inductive Setup where
  | checked (capacity : Nat) (clock : Clock)
  | asserted (capacity : Nat) (clock : Clock)
  | decisions (config : Decision.Config) (clock : Clock)

inductive Refusal where
  | config (e : ConfigError)
  | assertion
  deriving DecidableEq, Repr

def Refusal.message : Refusal → String
  | .config e => e.message
  | .assertion => "LoadingCache capacity must be > 0"

def Setup.clock : Setup → Clock
  | .checked _ clock | .asserted _ clock | .decisions _ clock => clock

def Setup.store? : Setup → Except Refusal Store
  | .checked capacity _ => ((Cache.new? capacity).mapError .config).map .plain
  | .asserted capacity _ => ((Cache.new? capacity).mapError fun _ => .assertion).map .plain
  | .decisions config _ => ((Decisions.new? config).mapError .config).map .decisions

namespace Session

def open? (setup : Setup) (observed : Bool) : Except Refusal Session :=
  setup.store?.map fun store => ⟨store, setup.clock, .origin, ∅, 0, ∅, observed⟩

def cache (s : Session) : Cache String := s.store.cache

def now (s : Session) : Instant := s.clock.read s.manual

def setCache (s : Session) (c : Cache String) : Session := { s with store := s.store.setCache c }

def view (s : Session) : View where
  entries := s.cache.keys.map fun key => (key, s.cache.peek s.now key)
  size := s.cache.size
  audit := s.cache.audit
  counters := s.cache.counters

def resolve? (s : Session) : Target → Option (String × Duration)
  | .key key ttl => some (key, ttl)
  | .decision key => s.store.decisions?.map fun d => (key.text, d.ttl)

def outcome (s : Session) (number : Nat) (key token : String) :
    Ending → Except (LoadError String) String
  | .value text => .ok text
  | .echo => .ok (key ++ ":" ++ if s.tokens.isCanceled token then "true" else "false")
  | .callNumber => .ok (toString number)
  | .unlessCanceled text =>
    match s.tokens.check token with
    | .ok () => .ok text
    | .error e => .error (.loader e.message)
  | .error text => .error (.loader text)
  | .panic text => .error (.panicked text)
  | .silentPanic => .error .panickedSilently

def ask (s : Session) : Query → Session × Reply Answer
  | .peek key => (s, .value (s.cache.peek s.now key))
  | .contains key => (s, .flag (s.cache.contains key))
  | .delete key =>
    let (c, mapped) := s.cache.delete key
    (s.setCache c, .flag mapped)
  | .size => (s, .count s.cache.size)
  | .capacity => (s, .count s.cache.capacity)
  | .isEmpty => (s, .flag s.cache.isEmpty)
  | .summary => (s, .text (s.cache.summary s.clock))
  | .snapshot => (s, .snapshot s.cache.snapshot)
  | .exposition stem => (s, .text (Exposition.render stem [s.cache.snapshot]))
  | .advance d =>
    match s.manual.add? d with
    | some manual => ({ s with manual }, .done)
    | none => (s, .refused)
  | .cancel token => ({ s with tokens := s.tokens.cancel token }, .done)
  | .isCanceled token => (s, .flag (s.tokens.isCanceled token))
  | .calls => (s, .count s.calls)
  | .decisionKey key => (s, .text key.text)
  | .cached key =>
    match s.store with
    | .decisions d => (s, .value (d.cached s.now key))
    | .plain _ => (s, .unsupported)
  | .invalidate key =>
    match s.store with
    | .decisions d =>
      let (d, mapped) := d.invalidate key
      ({ s with store := .decisions d }, .flag mapped)
    | .plain _ => (s, .unsupported)
  | .ttl =>
    match s.store with
    | .decisions d => (s, .duration d.ttl)
    | .plain _ => (s, .unsupported)
  | .nothing => (s, .done)

abbrev Runner := Session → List Step → Session × List Answer

def load (run : Runner) (s : Session) (key : String) (c : Call Step) :
    Session × Except (LoadError String) String × Option (List Answer) :=
  let s := { s with calls := s.calls + 1 }
  let number := s.calls
  match c.during with
  | some steps =>
    let (s, answers) := run s steps
    (s, s.outcome number key c.token c.ending, some answers)
  | none => (s, s.outcome number key c.token c.ending, none)

def serve (run : Runner) (s : Session) (c : Call Step) :
    Session × Except (Option Ticket) (Report Answer) :=
  match s.resolve? c.target with
  | none => (s, .error none)
  | some (key, ttl) =>
    match s.cache.enter s.now key ttl with
    | (cache, .hit value) => (s.setCache cache, .ok ⟨⟨.ok value, false⟩, none⟩)
    | (cache, .wait load) => (s.setCache cache, .error (some load))
    | (cache, .run claim) =>
      let (s, outcome, during) := (s.setCache cache).load run key c
      let (cache, result) := s.cache.settle s.now key ttl claim outcome
      (s.setCache cache, .ok ⟨⟨result, true⟩, during⟩)

def setThread (s : Session) (id : String) (t : Thread) : Session :=
  { s with threads := s.threads.insert id t }

def joinOne (run : Runner) (s : Session) (id : String) : Session × Option (Report Answer) :=
  match s.threads[id]? with
  | none => (s, none)
  | some (.finished report) => ({ s with threads := s.threads.erase id }, some report)
  | some (.waiting call load) =>
    if (s.cache.cell load.slot).isLoading load.generation then (s, none)
    else
      match { s with threads := s.threads.erase id }.serve run call with
      | (s, .ok report) => (s, some report)
      | (s, .error (some load)) => (s.setThread id (.waiting call load), none)
      | (s, .error none) => (s, none)

def joinAll (run : Runner) (s : Session) : List String → Session × List (Option (Report Answer))
  | [] => (s, [])
  | id :: ids =>
    let (s, report) := s.joinOne run id
    let (s, reports) := s.joinAll run ids
    (s, report :: reports)

def act (run : Runner) (s : Session) : Step → Session × Reply Answer
  | .call c _ =>
    match s.serve run c with
    | (s, .ok report) => (s, .report report)
    | (s, .error (some _)) => (s, .stuck)
    | (s, .error none) => (s, .unsupported)
  | .spawn id c _ =>
    match s.serve run c with
    | (s, .ok report) => (s.setThread id (.finished report), .flag false)
    | (s, .error (some load)) => (s.setThread id (.waiting c load), .flag true)
    | (s, .error none) => (s, .unsupported)
  | .ask q _ => s.ask q

def step (run : Runner) (s : Session) (st : Step) : Session × Answer :=
  let (s, reply) := s.act run st
  let (s, joined) := match st.join with
    | some ids =>
      let (s, reports) := s.joinAll run ids
      (s, some reports)
    | none => (s, none)
  (s, .mk reply (if s.observed then some s.view else none) joined)

def runWith (run : Runner) (s : Session) : List Step → Session × List Answer
  | [] => (s, [])
  | st :: steps =>
    let (s, answer) := s.step run st
    let (s, answers) := s.runWith run steps
    (s, answer :: answers)

def runTo : (depth : Nat) → Runner
  | 0 => fun s _ => (s, [])
  | n + 1 => fun s steps => s.runWith (runTo n) steps

/-- A call runs its loader at most once, so loaders nest no deeper than there are calls. -/
def run (s : Session) (steps : List Step) : Session × List Answer :=
  runTo (callsIn steps + 1) s steps

end Session

end Scenario

end Arbiter
