import StackScript.Compile
import StackScript.Host
import StackScript.Image.Reader
import StackScript.Image.Writer
import StackScript.Machine.Step

/-!
# The engine

An engine keeps compiler and machine in step: a host function that is defined in an engine is known
to the programs it compiles, and has the same place among the globals of the machine that runs
them.

Programs are run one after the other. Each run starts with the host functions as its only globals
and leaves its globals and its stack to be looked at; whatever objects they hold stay in the store.
-/

namespace StackScript

/-- A compiler and a machine with the same host functions. -/
structure Engine where
  options : Options := {}
  natives : List Native := []
  services : Services := {}
  store : Store := {}
  globals : List Value := []
  stack : List Value := []
  calls : List HostCall := []

namespace Engine

/-- Why an engine could not run a program. -/
inductive Error where
  | compile (ds : List Diagnostic)
  | image (e : Image.Error)
  | fault (f : Fault)
  | unfinished

def Error.message : Error → String
  | .compile ds => "compilation failed:\n" ++ Diagnostic.report ds
  | .image e => e.message
  | .fault f => "runtime error: " ++ f.message
  | .unfinished => "runtime error: too many steps"

/-- The number of steps after which a run is given up. -/
def maxSteps : Nat := 2 ^ 60

/-- An engine without host functions. Names of host functions in the options mean nothing before
the functions are defined. -/
def new (options : Options) : Engine := { options := { options with natives := [] } }

def define (e : Engine) (name : String) (arity : UInt32) (service : Service) : Engine :=
  let (native, store) := (Store.newNative name arity).run e.store
  { e with
    options := { e.options with natives := e.options.natives ++ [name] }
    natives := e.natives ++ [native]
    services := e.services.add native service
    store }

def compile (e : Engine) (program : Program) : Except Error (Chunk Constant) :=
  (program.compile e.options).mapError .compile

def runChunk (e : Engine) (chunk : Chunk Value) : Except Error Unit × Engine :=
  let (outcome, m) := Machine.run e.services.host maxSteps (.start e.store e.natives chunk)
  let e := { e with
    store := m.store
    globals := m.globals.toList
    stack := m.stack.reverse
    calls := e.calls ++ m.calls.reverse }
  match outcome with
  | .finished => (.ok (), e)
  | .failed f => (.error (.fault f), e)
  | .unfinished => (.error .unfinished, e)

def runConstant (e : Engine) (chunk : Chunk Constant) : Except Error Unit × Engine :=
  let (chunk, store) := chunk.load.run e.store
  { e with store }.runChunk chunk

def run (e : Engine) (program : Program) : Except Error Unit × Engine :=
  match e.compile program with
  | .ok chunk => e.runConstant chunk
  | .error err => (.error err, e)

def runImage (e : Engine) (image : List UInt8) : Except Error Unit × Engine :=
  match Image.decode image with
  | .ok chunk => e.runConstant chunk
  | .error err => (.error (.image err), e)

def shownGlobals (e : Engine) : List Shown := e.globals.map e.store.shown

def shownStack (e : Engine) : List Shown := e.stack.map e.store.shown

/-- The image of a chunk without code whose constants are the globals from a slot on. -/
def encodeGlobals (e : Engine) (slot : Nat) : Except Image.Error (Array UInt8) :=
  Image.encodeWith e.store.node { name := none, constants := e.globals.drop slot }

end Engine

end StackScript
