import StackScript.Machine.State

/-!
# Host functions

A program reaches the world outside through host functions. The machine knows them by name and
number of arguments only; here are the services that an engine can offer under such names. Each of
them answers from its arguments alone and changes nothing. Only the calls of watched services are
recorded with their arguments as shown, since what is never looked at need not be spelled out.
-/

namespace StackScript

/-- What a host function does. -/
inductive Service where
  | print
  | first
  | kindName
  | text
  | callable
  | count
  | fail
  | silent
  deriving DecidableEq, Repr

/-- The answer of a service. A missing first argument is the absent value. -/
def Service.answer (service : Service) (store : Store) (arguments : List Value) :
    Except String Value :=
  let first := arguments.headD .nil
  match service with
  | .print | .silent => .ok .void
  | .first => .ok first
  | .kindName => .ok (.string first.kind.name)
  | .text => .ok (.string (store.fullText first))
  | .callable => .ok (.bool first.isCallable)
  | .count => .ok (.int (Int64.ofNat arguments.length))
  | .fail => .error ("failed with " ++ toString arguments.length ++ " args")

/-- The services behind host functions, by the keys of the functions. -/
structure Services where
  entries : List (Nat × Service) := []
  watched : Service → Bool := fun service => service = .print

namespace Services

def add (s : Services) (native : Native) (service : Service) : Services :=
  { s with entries := (native.key, service) :: s.entries }

/-- The service behind a host function. One that was not added does nothing. -/
def get (s : Services) (native : Native) : Service :=
  (s.entries.lookup native.key).getD .silent

def host (s : Services) : Host where
  answer _ native store arguments := (s.get native).answer store arguments
  watches native := s.watched (s.get native)

/-- The output among the recorded calls of host functions. -/
def printed (s : Services) (calls : List HostCall) : List Shown :=
  (calls.filter fun c => s.get c.native = .print).flatMap HostCall.arguments

end Services

end StackScript
